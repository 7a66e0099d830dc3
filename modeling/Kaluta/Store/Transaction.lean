import Kaluta.Store.Consistent

namespace Kaluta

namespace MailWriter

variable {w w' : MailWriter} {touched unindexed : Set Rowid} {id g : String} {ids : List LabelId}
variable {label message thread u : Rowid} {m : IncomingMessage} {l : LabelRow}

def isDirty (w : MailWriter) (thread : Rowid) : Prop :=
  ∃ g, (thread, g) ∈ w.dirty

theorem isDirty_insertDirty : (w.insertDirty thread g).isDirty u ↔ w.isDirty u ∨ u = thread := by
  simp only [isDirty, insertDirty, List.mem_orderedInsert, List.mem_filter, Prod.mk.injEq,
    decide_eq_true_eq]
  constructor
  · rintro ⟨g', ⟨rfl, _⟩ | ⟨hm, _⟩⟩
    · exact .inr rfl
    · exact .inl ⟨g', hm⟩
  · rintro (⟨g', hm⟩ | rfl)
    · by_cases hu : u = thread
      case pos => exact ⟨g, .inl ⟨hu, rfl⟩⟩
      case neg => exact ⟨g', .inr ⟨hm, hu⟩⟩
    · exact ⟨g, .inl ⟨rfl, rfl⟩⟩

@[simp]
theorem tx_markThreadRowid : (w.markThreadRowid thread).tx = w.tx := by
  rw [markThreadRowid]
  split
  · rfl
  · split <;> rfl

theorem isDirty_markThreadRowid (ht : ∃ t ∈ w.tx.threads, t.id = thread) :
    (w.markThreadRowid thread).isDirty u ↔ w.isDirty u ∨ u = thread := by
  rw [markThreadRowid]
  split
  case isTrue hd =>
    refine ⟨.inl, ?_⟩
    rintro (h | rfl)
    · exact h
    · simp only [List.any_eq_true, decide_eq_true_eq] at hd
      obtain ⟨⟨_, g⟩, hm, rfl⟩ := hd
      exact ⟨g, hm⟩
  case isFalse =>
    obtain ⟨t, ht, hid⟩ := ht
    simp only [Table.find?_eq_some_iff.mpr ⟨ht, hid⟩]
    exact isDirty_insertDirty

-- The invariant of a transaction: its threads that are not dirty are settled, except those it is
-- about to mark (`touched`), and its messages are indexed, except those it is about to index.
structure Sound (w : MailWriter) (touched unindexed : Set Rowid) : Prop where
  consistent : w.tx.Consistent ({t | w.isDirty t} ∪ touched)
  indexed    : w.tx.Indexed unindexed

namespace Sound

theorem wf (h : w.Sound touched unindexed) : w.tx.WellFormed :=
  h.consistent.wf

theorem touch (h : w.Sound touched unindexed) : w.Sound (insert thread touched) unindexed :=
  ⟨h.consistent.mono (Set.union_subset_union_right _ (Set.subset_insert ..)), h.indexed⟩

-- A touched thread may be left alone once it is marked.
theorem mark (h : w.Sound (insert thread touched) unindexed)
    (ht : ∃ t ∈ w.tx.threads, t.id = thread) : (w.markThreadRowid thread).Sound touched unindexed := by
  refine ⟨?_, by rw [tx_markThreadRowid]; exact h.indexed⟩
  rw [tx_markThreadRowid]
  refine h.consistent.mono ?_
  rintro u (hu | rfl | hu)
  · exact .inl ((isDirty_markThreadRowid ht).mpr (.inl hu))
  · exact .inl ((isDirty_markThreadRowid ht).mpr (.inr rfl))
  · exact .inr hu

theorem insertDirty (h : w.Sound (insert thread touched) unindexed) :
    (w.insertDirty thread g).Sound touched unindexed := by
  refine ⟨h.consistent.mono ?_, h.indexed⟩
  rintro u (hu | rfl | hu)
  · exact .inl (isDirty_insertDirty.mpr (.inl hu))
  · exact .inl (isDirty_insertDirty.mpr (.inr rfl))
  · exact .inr hu

-- The threads of the messages with a rowid, when one of them has it.
theorem threadId_mem {row : MessageRow} (hr : row ∈ w.tx.messages) :
    ∀ m ∈ w.tx.messages, m.id = row.id → m.threadId ∈ {t | w.isDirty t} ∪ insert row.threadId touched :=
  fun _ hm hid => .inr (.inl (Table.eq_of_key_eq hm hr hid ▸ rfl))

theorem deleteMessage (h : w.Sound touched unindexed) (id : MessageId) :
    (w.deleteMessage id).1.Sound touched unindexed := by
  rw [MailWriter.deleteMessage]
  split
  case h_1 => exact h
  case h_2 row hr =>
    have ⟨hr, _⟩ := h.wf.message?_eq_some.mp hr
    have ht := h.wf.messageThread row hr
    exact mark ⟨h.touch.consistent.unindexMessage.deleteMessage (threadId_mem hr),
      h.indexed.deleteMessage⟩ ht

theorem modifyMessageLabels (h : w.Sound touched unindexed)
    (hs : w.modifyMessageLabels id add remove = .ok (w', found)) : w'.Sound touched unindexed := by
  rw [MailWriter.modifyMessageLabels] at hs
  split at hs
  case h_1 => cases hs; exact h
  case h_2 row hr =>
    have ⟨hr, _⟩ := h.wf.message?_eq_some.mp hr
    have ⟨tx, htx, hs⟩ := Except.bind_eq_ok.mp hs
    cases Except.pure_eq_ok.mp hs
    have hc := h.touch.consistent.replaceMessageLabels (threadId_mem hr) htx
    obtain ⟨_, _, rfl⟩ := Store.replaceMessageLabels_frame htx
    exact mark ⟨hc.setFlags (threadId_mem hr), h.indexed.updateMessages⟩ (h.wf.messageThread row hr)

theorem adoptLocalCopy (h : w.Sound touched unindexed) (localId sent : MessageId) :
    (w.adoptLocalCopy localId sent).Sound touched unindexed := by
  rw [MailWriter.adoptLocalCopy]
  split
  case isTrue => exact h.deleteMessage localId
  case isFalse hs =>
    split
    case h_1 => exact h
    case h_2 row hr =>
      have ⟨hr, hg⟩ := h.wf.message?_eq_some.mp hr
      have hd : ∀ m ∈ w.tx.messages, m.gmailId = localId →
          m.threadId ∈ {t | w.isDirty t} ∪ insert row.threadId touched :=
        fun m hm he => .inr (.inl (h.wf.messageIds m hm row hr (he.trans hg.symm) ▸ rfl))
      have hn : w.tx.message? sent = none := by simpa using hs
      exact mark ⟨h.touch.consistent.renameMessage hn hd, h.indexed.updateMessages⟩
        (h.wf.messageThread row hr)

theorem upsertLabels (h : w.Sound touched unindexed) (labels : List Label) :
    (w.upsertLabels labels).Sound touched unindexed := by
  have ⟨hc, hi⟩ : (labels.foldl Store.upsertLabel w.tx).Consistent ({t | w.isDirty t} ∪ touched) ∧
      (labels.foldl Store.upsertLabel w.tx).Indexed unindexed :=
    List.foldl_preserves
      (P := fun tx : Store => tx.Consistent ({t | w.isDirty t} ∪ touched) ∧ tx.Indexed unindexed)
      (fun l _ h => ⟨h.left.upsertLabel l, by rw [Store.upsertLabel]; split <;> exact h.right⟩)
      ⟨h.consistent, h.indexed⟩
  exact ⟨hc, hi⟩

-- Marking threads changes neither the store nor what is marked already.
theorem markThreads (h : w.Sound touched unindexed) {threads : List Rowid}
    (ht : ∀ thread ∈ threads, ∃ t ∈ w.tx.threads, t.id = thread) :
    (threads.foldl markThreadRowid w).Sound touched unindexed ∧
    (threads.foldl markThreadRowid w).tx = w.tx ∧
    ∀ thread, w.isDirty thread ∨ thread ∈ threads →
      (threads.foldl markThreadRowid w).isDirty thread := by
  induction threads generalizing w
  case nil => exact ⟨h, rfl, fun _ hd => hd.resolve_right List.not_mem_nil⟩
  case cons t ts ih =>
    have exists_t := ht t List.mem_cons_self
    have ht' : ∀ u ∈ ts, ∃ t' ∈ (w.markThreadRowid t).tx.threads, t'.id = u := by
      rw [tx_markThreadRowid]
      exact fun u hu => ht u (List.mem_cons_of_mem _ hu)
    have ⟨hs, htx, hd⟩ := ih (h.touch.mark exists_t) ht'
    refine ⟨hs, htx.trans tx_markThreadRowid, fun thread hm => hd thread ?_⟩
    rw [isDirty_markThreadRowid exists_t]
    obtain hm | hm := hm
    · exact .inl (.inl hm)
    · exact (List.mem_cons.mp hm).imp_left .inr

theorem markThreadsWithLabel (h : w.Sound touched unindexed) (label : Rowid) :
    (w.markThreadsWithLabel label).Sound touched unindexed ∧
    (w.markThreadsWithLabel label).tx = w.tx ∧
    ∀ thread, w.tx.isInMailbox thread label → (w.markThreadsWithLabel label).isDirty thread := by
  rw [MailWriter.markThreadsWithLabel]
  generalize hts : (w.tx.threadLabels.rows.filter (·.labelId = label)).map (·.threadId) = threads
  have mem : ∀ thread, thread ∈ threads ↔ w.tx.isInMailbox thread label := by
    intro thread
    simp only [← hts, List.mem_map, List.mem_filter, decide_eq_true_eq, Table.mem_rows]
    constructor
    · rintro ⟨tl, ⟨htl, hid⟩, ht⟩; exact ⟨tl, htl, ht, hid⟩
    · rintro ⟨tl, htl, ht, hid⟩; exact ⟨tl, ⟨htl, hid⟩, ht⟩
  have exists_thread : ∀ thread ∈ threads, ∃ t ∈ w.tx.threads, t.id = thread := by
    intro thread hm
    obtain ⟨tl, htl, ht, _⟩ := (mem thread).mp hm
    exact ht ▸ h.wf.mailboxThread tl htl
  obtain ⟨hs, htx, hd⟩ := h.markThreads exists_thread
  exact ⟨hs, htx, fun thread hm => hd thread (.inr ((mem thread).mpr hm))⟩

-- Labels go one by one, each after its threads are marked.
theorem deleteLabels (h : w.Sound touched unindexed) {labels : List LabelRow}
    (hn : (labels.map (·.id)).Nodup) (hl : ∀ l ∈ labels, l ∈ w.tx.labels) :
    (labels.foldl (fun w l => let w := w.markThreadsWithLabel l.id
      { w with tx := w.tx.deleteLabel l.id }) w).Sound touched unindexed := by
  induction labels generalizing w
  case nil => exact h
  case cons l ls ih =>
    rw [List.map_cons, List.nodup_cons] at hn
    have ⟨hs, htx, hd⟩ := h.markThreadsWithLabel l.id
    refine ih ⟨?_, hs.indexed⟩ hn.right ?_
    · exact hs.consistent.deleteLabel (htx ▸ hl l List.mem_cons_self)
        fun thread hin => .inl (hd thread (htx ▸ hin))
    · intro l' hl'
      refine Table.mem_delete.mpr ⟨htx ▸ hl l' (List.mem_cons_of_mem _ hl'), decide_eq_false ?_⟩
      exact fun hid => hn.left (hid ▸ List.mem_map_of_mem hl')

theorem retainLabels (h : w.Sound touched unindexed) (keep : List LabelId) :
    (w.retainLabels keep).Sound touched unindexed := by
  refine h.deleteLabels ?_ ?_
  · rw [List.filter_filter]
    exact (List.filter_sublist.map _).nodup w.tx.labels.nodup
  · intro l hl
    exact (List.mem_filter.mp (List.mem_filter.mp hl).left).left

theorem ensureThread (h : w.Sound touched unindexed)
    (he : w.ensureThread id = (w', thread)) :
    w'.Sound (insert thread touched) unindexed ∧ ∃ t ∈ w'.tx.threads, t.id = thread := by
  rw [MailWriter.ensureThread] at he
  split at he <;> cases he
  case h_1 row hr =>
    exact ⟨h.touch, row, (h.wf.thread?_eq_some.mp hr).left, rfl⟩
  case h_2 hn =>
    refine ⟨⟨h.touch.consistent.insertThread hn (.inr (.inl rfl)), h.indexed⟩, ?_⟩
    exact ⟨_, Table.mem_insertRow.mpr (.inr rfl), rfl⟩

end Sound

theorem tx_deleteMessage (id : MessageId) : (w.deleteMessage id).1.tx.threads = w.tx.threads ∧
    ∀ m ∈ (w.deleteMessage id).1.tx.messages, m ∈ w.tx.messages := by
  rw [MailWriter.deleteMessage]
  split
  case h_1 => exact ⟨rfl, fun _ hm => hm⟩
  case h_2 =>
    rw [tx_markThreadRowid]
    exact ⟨rfl, fun m hm => (Table.mem_delete.mp hm).left⟩

namespace Sound

theorem replaceLocalCopies (h : w.Sound touched unindexed) (m : IncomingMessage) :
    (w.replaceLocalCopies m).Sound touched unindexed ∧
    (w.replaceLocalCopies m).tx.threads = w.tx.threads ∧
    ∀ row ∈ (w.replaceLocalCopies m).tx.messages, row ∈ w.tx.messages := by
  rw [MailWriter.replaceLocalCopies]
  split
  case h_1 => exact ⟨h, rfl, fun _ hm => hm⟩
  case h_2 =>
    split
    case isTrue  => exact ⟨h, rfl, fun _ hm => hm⟩
    case isFalse =>
      refine List.foldl_preserves (P := fun w' : MailWriter => w'.Sound touched unindexed ∧
        w'.tx.threads = w.tx.threads ∧ ∀ row ∈ w'.tx.messages, row ∈ w.tx.messages)
        ?step ⟨h, rfl, fun _ hm => hm⟩
      intro w' id _ ⟨h, ht, hm⟩
      have ⟨ht', hm'⟩ := tx_deleteMessage (w := w') id
      exact ⟨h.deleteMessage id, ht'.trans ht, fun row hr => hm row (hm' row hr)⟩

-- The message's row is in the thread, and both wait for what is still to be written.
theorem storeMessage (h : w.Sound (insert thread touched) ∅) (ht : ∃ t ∈ w.tx.threads, t.id = thread)
    (he : w.storeMessage thread m ids = (w', message)) :
    w'.Sound (insert thread touched) {message} ∧ (∃ t ∈ w'.tx.threads, t.id = thread) ∧
    ∀ row ∈ w'.tx.messages, row.id = message → row.threadId = thread := by
  rw [MailWriter.storeMessage] at he
  split at he
  case h_1 old ho =>
    have ⟨ho, _⟩ := h.wf.message?_eq_some.mp ho
    cases he
    have marked : let w₁ := if old.threadId = thread then w else w.markThreadRowid old.threadId
        w₁.Sound (insert thread touched) ∅ ∧ w₁.tx = w.tx ∧
        old.threadId ∈ {t | w₁.isDirty t} ∪ insert thread touched := by
      split
      case isTrue ht => exact ⟨h, rfl, .inr (.inl ht)⟩
      case isFalse   =>
        have ht := h.wf.messageThread old ho
        exact ⟨h.touch.mark ht, tx_markThreadRowid, .inl ((isDirty_markThreadRowid ht).mpr (.inr rfl))⟩
    obtain ⟨h₁, htx, hd⟩ := marked
    have ho : old ∈ (if old.threadId = thread then w else
      w.markThreadRowid old.threadId).tx.messages := htx ▸ ho
    refine ⟨⟨?_, ?_⟩, htx ▸ ht, ?_⟩
    · exact h₁.consistent.updateMessage (htx ▸ ht)
        (fun m hm hid => Table.eq_of_key_eq hm ho hid ▸ hd) (.inr (.inl rfl))
    · exact h₁.indexed.updateMessages.mono (Set.empty_subset _)
    · simp only [Store.updateMessage, Table.mem_update]
      rintro row (⟨_, hp⟩ | ⟨_, _, _, rfl⟩) hid
      · exact absurd hid (by simpa using hp)
      · rfl
  case h_2 hn =>
    cases he
    have inserted : { w with tx := w.tx.insertMessage thread m ids }.Sound (insert thread touched)
        {w.tx.messages.nextRowid} := by
      refine ⟨h.consistent.insertMessage hn ht (.inr (.inl rfl)), ?_⟩
      have hi : (w.tx.insertMessage thread m ids).Indexed (∅ ∪ {w.tx.messages.nextRowid}) :=
        h.indexed.insertMessage
      rwa [Set.empty_union] at hi
    have ⟨h', ht', hm'⟩ := inserted.replaceLocalCopies m
    refine ⟨h', ht' ▸ ht, fun row hr hid => ?_⟩
    obtain hr | rfl := Table.mem_insertRow.mp (hm' row hr)
    · exact absurd hid (Table.lt_nextRowid hr).ne
    · rfl

theorem insertChildren_eq {rows : List α} {s : Store} (hs : s.insertChildren message rows = .ok s') :
    s' = s := by
  rw [Store.insertChildren] at hs
  split at hs <;> cases hs
  rfl

theorem replaceBody_eq {s : Store} (hs : s.replaceBody message m = .ok s') : s' = s := by
  rw [Store.replaceBody] at hs
  split at hs
  case h_1 => cases hs; rfl
  case h_2 =>
    have ⟨_, hb, hs⟩ := Except.bind_eq_ok.mp hs
    exact (insertChildren_eq hs).trans (insertChildren_eq hb)

theorem upsertMessage (h : w.Sound touched ∅) (hs : w.upsertMessage m = .ok w') :
    w'.Sound touched ∅ := by
  rw [MailWriter.upsertMessage] at hs
  cases he : w.ensureThread m.threadId
  case mk w₁ thread =>
    have ⟨h₁, ht⟩ := h.ensureThread he
    cases hm : w₁.storeMessage thread m (w₁.incomingLabels m)
    case mk w₂ message =>
      have ⟨h₂, _, hrow⟩ := h₁.storeMessage ht hm
      simp only [he, hm] at hs
      have ⟨_, hp, hs⟩ := Except.bind_eq_ok.mp hs
      have ⟨_, hl, hs⟩ := Except.bind_eq_ok.mp hs
      have ⟨_, hb, hs⟩ := Except.bind_eq_ok.mp hs
      cases insertChildren_eq hp
      cases replaceBody_eq hb
      cases Except.pure_eq_ok.mp hs
      refine insertDirty ⟨?_, ?_⟩
      · exact (h₂.consistent.replaceMessageLabels
          (fun row hr hid => .inr (.inl (hrow row hr hid))) hl).indexMessage
      · obtain ⟨_, _, rfl⟩ := Store.replaceMessageLabels_frame hl
        exact Store.indexed_indexMessage h₂.indexed

end Sound
end MailWriter
end Kaluta
