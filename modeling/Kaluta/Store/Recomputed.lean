import Kaluta.Store.Transaction

namespace Kaluta

open SystemLabels

namespace Store

variable {s s' : Store} {dirty : Set Rowid} {label thread : Rowid} {unread : Bool} {l : LabelRow}
variable {ids : List LabelId}

-- Two stores with the same mail: the tables that a recomputation reads and leaves alone, and the
-- threads their messages are in.
structure SameMail (s s' : Store) : Prop where
  labels        : s'.labels = s.labels
  messages      : s'.messages = s.messages
  messageLabels : s'.messageLabels = s.messageLabels
  messagesFts   : s'.messagesFts = s.messagesFts
  threadIds     : ∀ m ∈ s.messages, s'.threadIdOf m.threadId = s.threadIdOf m.threadId

theorem SameMail.rfl : SameMail s s :=
  ⟨.refl _, .refl _, .refl _, .refl _, fun _ _ => .refl _⟩

theorem SameMail.trans (h₁ : SameMail s s₁) (h₂ : SameMail s₁ s₂) : SameMail s s₂ :=
  ⟨h₂.labels.trans h₁.labels, h₂.messages.trans h₁.messages,
    h₂.messageLabels.trans h₁.messageLabels, h₂.messagesFts.trans h₁.messagesFts,
    fun m hm => (h₂.threadIds m (h₁.messages ▸ hm)).trans (h₁.threadIds m hm)⟩

theorem labelStat_removeThreadLabel (hs : (s.labelStats.find? label).isSome) :
    (s.removeThreadLabel label thread unread).labelStat =
    bump s.labelStat (some label) (-1) (-unread.toNat) := by
  funext i
  simp only [labelStat, removeThreadLabel, Table.find?_update, bump, Option.some.injEq]
  by_cases hi : label = i
  case pos =>
    subst hi
    obtain ⟨stat, hs⟩ := Option.isSome_iff_exists.mp hs
    simp [hs, Table.find?_key_eq hs, Int.sub_eq_add_neg]
  case neg =>
    cases hs : s.labelStats.find? i
    case none      => simp [hi]
    case some stat => simp [hi, Table.find?_key_eq hs, Ne.symm hi]

theorem labelStat_addStat {threadLabels} : { s with
      threadLabels
      labelStats := s.labelStats.upsert
        { labelId := label, threadCount := 1, unreadThreadCount := unread.toNat }
        (fun stat => { stat with
          threadCount       := stat.threadCount + 1
          unreadThreadCount := stat.unreadThreadCount + unread.toNat })
        (fun _ => rfl) : Store }.labelStat =
    bump s.labelStat (some label) 1 unread.toNat := by
  funext i
  simp only [labelStat, Table.find?_upsert, bump, Option.some.injEq]
  by_cases hi : i = label
  case pos =>
    subst hi
    cases s.labelStats.find? i <;> simp
  case neg => simp [hi, Ne.symm hi]

theorem categoryStat_countInboxCategory {category : LabelId} {n u : Int} :
    (s.countInboxCategory category n u).categoryStat = bump s.categoryStat (some category) n u := by
  funext i
  simp only [categoryStat, countInboxCategory, Table.find?_upsert, bump, Option.some.injEq]
  by_cases hi : i = category
  case pos =>
    subst hi
    cases s.inboxCategoryStats.find? i <;> simp
  case neg => simp [hi, Ne.symm hi]

namespace WellFormed

variable (h : s.WellFormed)
include h

theorem removeThreadLabel : (s.removeThreadLabel label thread unread).WellFormed := { h with
  mailboxLabel  := fun tl htl => h.mailboxLabel tl (Table.mem_delete.mp htl).left
  mailboxThread := fun tl htl => h.mailboxThread tl (Table.mem_delete.mp htl).left
  mailboxOnce   := fun a ha b hb =>
    h.mailboxOnce a (Table.mem_delete.mp ha).left b (Table.mem_delete.mp hb).left
  statLabel     := by
    simp only [Store.removeThreadLabel, Table.mem_update]
    rintro stat (⟨hs, _⟩ | ⟨stat, hs, _, rfl⟩)
    · exact h.statLabel stat hs
    · exact h.statLabel stat hs
}

theorem countInboxCategory : (s.countInboxCategory category n u).WellFormed :=
  { h with }

end WellFormed

-- A thread leaves a mailbox it is in, and the mailbox's counters follow.
theorem labels_removeThreadLabel (wf : s.WellFormed) (h : s.labelStat = s.labelTally)
    (hin : s.isInMailbox thread label) :
    (s.removeThreadLabel label thread (s.isUnread thread)).labelStat =
    (s.removeThreadLabel label thread (s.isUnread thread)).labelTally := by
  obtain ⟨tl, htl, rfl, rfl⟩ := hin
  have only : ∀ b ∈ s.threadLabels, (b.labelId = tl.labelId && b.threadId = tl.threadId) = true ↔
      b = tl := by
    intro b hb
    simp only [Bool.and_eq_true, decide_eq_true_eq]
    exact ⟨fun he => wf.mailboxOnce b hb tl htl he.left he.right, fun he => he ▸ ⟨rfl, rfl⟩⟩
  have stat : (s.labelStats.find? tl.labelId).isSome := by
    have pos : 0 < (s.labelStat tl.labelId).1 := h ▸ Table.tally_pos htl rfl
    rw [labelStat] at pos
    cases hs : s.labelStats.find? tl.labelId
    case none   => simp [hs] at pos
    case some _ => rfl
  rw [labelStat_removeThreadLabel stat, h, labelTally, labelTally, removeThreadLabel]
  exact (Table.tally_delete htl only).symm

-- The mailboxes of a thread go one by one.
theorem leaveMailboxes (wf : s.WellFormed) (h : s.labelStat = s.labelTally)
    {labels : List LabelRow} (hn : (labels.map (·.id)).Nodup)
    (hin : ∀ l ∈ labels, s.isInMailbox thread l.id) (hu : unread = s.isUnread thread) :
    ∃ threadLabels labelStats,
      labels.foldl (·.removeThreadLabel ·.id thread unread) s =
        { s with threadLabels, labelStats } ∧
      { s with threadLabels, labelStats }.WellFormed ∧
      { s with threadLabels, labelStats }.labelStat = { s with threadLabels, labelStats }.labelTally ∧
      ∀ tl, tl ∈ threadLabels ↔
        tl ∈ s.threadLabels ∧ ¬(tl.threadId = thread ∧ ∃ l ∈ labels, l.id = tl.labelId) := by
  induction labels generalizing s
  case nil => exact ⟨_, _, rfl, wf, h, by simp⟩
  case cons l ls ih =>
    subst hu
    rw [List.map_cons, List.nodup_cons] at hn
    have hl := hin l List.mem_cons_self
    have still : ∀ l' ∈ ls, (s.removeThreadLabel l.id thread (s.isUnread thread)).isInMailbox
        thread l'.id := by
      intro l' hl'
      have ⟨tl, htl, ht, hid⟩ := hin l' (List.mem_cons_of_mem _ hl')
      have hne : l'.id ≠ l.id := fun he => hn.left (he ▸ List.mem_map_of_mem hl')
      exact ⟨tl, Table.mem_delete.mpr ⟨htl, by simp [hid, hne]⟩, ht, hid⟩
    obtain ⟨tls, stats, he, wf', h', hm⟩ := ih wf.removeThreadLabel
      (labels_removeThreadLabel wf h hl) hn.right still rfl
    refine ⟨tls, stats, he, wf', h', fun tl => (hm tl).trans ?_⟩
    simp only [removeThreadLabel, Table.mem_delete, List.mem_cons, Bool.and_eq_false_iff,
      decide_eq_false_iff_not]
    constructor
    · rintro ⟨⟨htl, hne⟩, hnot⟩
      refine ⟨htl, ?_⟩
      rintro ⟨ht, l', rfl | hl', hid⟩
      · exact hne.elim (fun hne => hne hid.symm) (fun hne => hne ht)
      · exact hnot ⟨ht, l', hl', hid⟩
    · rintro ⟨htl, hnot⟩
      refine ⟨⟨htl, ?_⟩, fun ⟨ht, l', hl', hid⟩ => hnot ⟨ht, l', .inr hl', hid⟩⟩
      by_cases ht : tl.threadId = thread
      case pos => exact .inl fun hid => hnot ⟨ht, l, .inl rfl, hid.symm⟩
      case neg => exact .inr ht

-- Between taking a thread out of what it was counted in and counting it again: it is in no mailbox,
-- and the counters cover the other threads.
structure Uncounted (s : Store) (thread : Rowid) (dirty : Set Rowid) : Prop where
  wf         : s.WellFormed
  labels     : s.labelStat = s.labelTally
  categories : s.categoryStat =
                (s.threads.delete (·.id = thread)).tally (inboxCategory ·.labelIds) (·.unread)
  settled    : ∀ t ∈ s.threads, t.id ∉ dirty → t.id ≠ thread → s.Settled t
  unboxed    : ∀ tl ∈ s.threadLabels, tl.threadId ≠ thread

theorem mem_mailboxesOf : l ∈ s.mailboxesOf thread ↔ l ∈ s.labels ∧ s.isInMailbox thread l.id := by
  simp only [mailboxesOf, isInMailbox, List.mem_filter, List.any_eq_true, Bool.and_eq_true,
    decide_eq_true_eq, Table.mem_rows]
  refine and_congr_right fun _ => exists_congr fun tl => and_congr_right fun _ => And.comm

theorem Uncounted.countInboxCategory {category : LabelId} {n u : Int} (wf : s.WellFormed)
    (labels : s.labelStat = s.labelTally)
    (categories : bump s.categoryStat (some category) n u =
      (s.threads.delete (·.id = thread)).tally (inboxCategory ·.labelIds) (·.unread))
    (settled : ∀ t ∈ s.threads, t.id ∉ dirty → t.id ≠ thread → s.Settled t)
    (unboxed : ∀ tl ∈ s.threadLabels, tl.threadId ≠ thread) :
    (s.countInboxCategory category n u).Uncounted thread dirty where
  wf         := wf.countInboxCategory
  labels     := labels
  categories := categoryStat_countInboxCategory.trans categories
  settled    := fun t ht hd hne => (settled t ht hd hne).frame wf wf.countInboxCategory rfl rfl
    (fun _ _ _ => Iff.rfl) (fun _ _ => Iff.rfl)
  unboxed    := unboxed

theorem Consistent.uncountThread (h : s.Consistent dirty) (thread : Rowid) :
    ∃ threadLabels labelStats inboxCategoryStats,
      s.uncountThread thread = { s with threadLabels, labelStats, inboxCategoryStats } ∧
      (s.uncountThread thread).Uncounted thread dirty := by
  have hn : ((s.mailboxesOf thread).map (·.id)).Nodup :=
    (List.filter_sublist.map _).nodup s.labels.nodup
  obtain ⟨tls, stats, he, wf, ht, hm⟩ := leaveMailboxes h.wf h.labels hn
    (fun l hl => (mem_mailboxesOf.mp hl).right) rfl
  have unboxed : ∀ tl ∈ tls, tl.threadId ≠ thread := by
    intro tl htl hid
    obtain ⟨htl, hnot⟩ := (hm tl).mp htl
    obtain ⟨l, hl, hlid⟩ := h.wf.mailboxLabel tl htl
    exact hnot ⟨hid, l, mem_mailboxesOf.mpr ⟨hl, tl, htl, hid, hlid.symm⟩, hlid⟩
  have settled : ∀ t ∈ s.threads, t.id ∉ dirty → t.id ≠ thread →
      { s with threadLabels := tls, labelStats := stats : Store }.Settled t := by
    intro t ht hd hne
    refine (h.settled t ht hd).frame h.wf wf rfl rfl (fun _ _ _ => Iff.rfl) fun tl hid => ?_
    rw [hm tl]
    exact ⟨And.left, fun htl => ⟨htl, fun hno => hne (hid.symm.trans hno.left)⟩⟩
  rw [Store.uncountThread]
  cases hrow : s.threads.find? thread
  case none =>
    have hu : s.isUnread thread = false := by simp [isUnread, hrow]
    simp only [inboxCategory, List.not_mem_nil, if_false, ← hu, he]
    refine ⟨_, _, _, rfl, wf, ht, ?_, settled, unboxed⟩
    rw [Table.tally_delete_none fun t ht hid => ?_]
    · exact h.categories
    · exact absurd (by simpa using hid) (Table.find?_eq_none_iff.mp hrow t ht)
  case some row =>
    obtain ⟨hr, hid⟩ := Table.find?_eq_some_iff.mp hrow
    have hu : s.isUnread thread = row.unread := by simp [isUnread, hrow]
    have only : ∀ t ∈ s.threads, decide (t.id = thread) = true ↔ t = row := by
      intro t ht
      rw [decide_eq_true_eq]
      exact ⟨fun he => Table.eq_of_key_eq ht hr (he.trans hid.symm), fun he => he ▸ hid⟩
    have hc : (s.threads.delete (·.id = thread)).tally (inboxCategory ·.labelIds) (·.unread) =
        bump s.categoryTally (inboxCategory row.labelIds) (-1) (-row.unread.toNat) :=
      Table.tally_delete hr only
    simp only [← hu, he]
    cases hcat : inboxCategory row.labelIds
    case none =>
      refine ⟨_, _, _, rfl, wf, ht, ?_, settled, unboxed⟩
      rw [hc, hcat, bump_none]
      exact h.categories
    case some category =>
      refine ⟨_, _, _, rfl, Uncounted.countInboxCategory wf ht ?_ settled unboxed⟩
      rw [hc, hcat, hu]
      exact congrArg (bump · _ _ _) h.categories

theorem Uncounted.deleteThread_eq (h : s.Uncounted thread dirty) (hm : s.messagesOf thread = []) :
    s.deleteThread thread = { s with threads := s.threads.delete (·.id = thread) } := by
  have no_message : ∀ m ∈ s.messages, m.threadId ≠ thread :=
    fun m hm' ht => List.not_mem_nil (hm ▸ mem_messagesOf.mpr ⟨hm', ht⟩)
  rw [deleteThread, Table.delete_eq_self (t := s.messages) (by simpa using no_message),
    Table.delete_eq_self (t := s.threadLabels) (by simpa using h.unboxed),
    Table.delete_eq_self (t := s.messageLabels)]
  simp only [List.any_eq_false]
  intro ml _ m hm
  simp [no_message m hm]

-- A thread without messages goes.
theorem Uncounted.deleteThread (h : s.Uncounted thread dirty) (hm : s.messagesOf thread = []) :
    (s.deleteThread thread).Consistent (dirty \ {thread}) := by
  have no_message : ∀ m ∈ s.messages, m.threadId ≠ thread :=
    fun m hm' ht => List.not_mem_nil (hm ▸ mem_messagesOf.mpr ⟨hm', ht⟩)
  have kept : ∀ t, (∃ t' ∈ s.threads, t'.id = t) → t ≠ thread →
      ∃ t' ∈ s.threads.delete (·.id = thread), t'.id = t :=
    fun t ⟨t', ht', hid⟩ hne => ⟨t', Table.mem_delete.mpr ⟨ht', by simp [hid, hne]⟩, hid⟩
  have wf : { s with threads := s.threads.delete (·.id = thread) : Store }.WellFormed := { h.wf with
    threadIds     := fun a ha b hb =>
      h.wf.threadIds a (Table.mem_delete.mp ha).left b (Table.mem_delete.mp hb).left
    messageThread := fun m hm => kept _ (h.wf.messageThread m hm) (no_message m hm)
    mailboxThread := fun tl htl => kept _ (h.wf.mailboxThread tl htl) (h.unboxed tl htl)
  }
  rw [h.deleteThread_eq hm]
  refine ⟨wf, ?labels, h.categories, ?settled⟩
  case labels =>
    rw [labelTally_congr]
    · exact h.labels
    · intro tl htl
      refine Table.find?_eq_of_mem_iff fun t ht => ?_
      simp [Table.mem_delete, ht, h.unboxed tl htl]
  case settled =>
    intro t ht hd
    simp only [Table.mem_delete, decide_eq_false_iff_not] at ht
    have hd : t.id ∉ dirty := fun hm => hd ⟨hm, ht.right⟩
    exact (h.settled t ht.left hd ht.right).frame h.wf wf rfl rfl (fun _ _ _ => Iff.rfl)
      (fun _ _ => Iff.rfl)

-- A thread enters a mailbox that it is not in, at the place its other mailboxes have it.
theorem enterMailbox (wf : s.WellFormed) (h : s.labelStat = s.labelTally)
    (sortKey : ∀ tl ∈ s.threadLabels, tl.threadId = thread → tl.lastMessageAt = last)
    (hs : s.addThreadLabel label last thread (s.isUnread thread) = .ok s') :
    ∃ threadLabels labelStats, s' = { s with threadLabels, labelStats } ∧
      s'.WellFormed ∧ s'.labelStat = s'.labelTally ∧
      ∀ tl, tl ∈ threadLabels ↔ tl ∈ s.threadLabels ∨ tl = ⟨label, last, thread⟩ := by
  rw [Store.addThreadLabel] at hs
  split at hs
  case isFalse => cases hs
  case isTrue hn =>
    split at hs <;> cases hs
    case isTrue he =>
      obtain ⟨hl, ht⟩ := Bool.and_eq_true_iff.mp he
      obtain ⟨l, hl⟩ := Option.isSome_iff_exists.mp hl
      obtain ⟨hl, hlid⟩ := Table.find?_eq_some_iff.mp hl
      have not_in : ∀ tl ∈ s.threadLabels, tl.labelId = label → tl.threadId ≠ thread := by
        rintro tl htl rfl rfl
        exact hn tl htl (by rw [← sortKey tl htl rfl])
      refine ⟨_, _, rfl, ?wf, ?labels, fun tl => Table.mem_insert⟩
      case labels =>
        rw [labelStat_addStat, h, labelTally, labelTally]
        symm
        exact Table.tally_insert (h := hn)
      case wf => exact { wf with
        mailboxLabel := by
          simp only [Table.mem_insert]
          rintro tl (htl | rfl)
          · exact wf.mailboxLabel tl htl
          · exact ⟨l, hl, hlid⟩
        mailboxThread := by
          simp only [Table.mem_insert]
          rintro tl (htl | rfl)
          · exact wf.mailboxThread tl htl
          · exact find?_threads_isSome.mp ht
        mailboxOnce := by
          simp only [Table.mem_insert]
          rintro a (ha | rfl) b (hb | rfl) hid ht
          · exact wf.mailboxOnce a ha b hb hid ht
          · exact absurd ht (not_in a ha hid)
          · exact absurd ht.symm (not_in b hb hid.symm)
          · rfl
        statLabel := by
          intro stat hs
          have hs := Table.find?_key hs
          rw [Table.find?_upsert] at hs
          split at hs
          case isTrue hk  => exact ⟨l, hl, hlid.trans hk.symm⟩
          case isFalse    => exact wf.statLabel stat (Table.find?_mem hs)
      }

theorem enterMailboxes (wf : s.WellFormed) (h : s.labelStat = s.labelTally)
    (sortKey : ∀ tl ∈ s.threadLabels, tl.threadId = thread → tl.lastMessageAt = last)
    (hu : unread = s.isUnread thread) {labels : List LabelRow}
    (hs : labels.foldlM (·.addThreadLabel ·.id last thread unread) s = .ok s') :
    ∃ threadLabels labelStats, s' = { s with threadLabels, labelStats } ∧
      s'.WellFormed ∧ s'.labelStat = s'.labelTally ∧
      ∀ tl, tl ∈ threadLabels ↔ tl ∈ s.threadLabels ∨ ∃ l ∈ labels, tl = ⟨l.id, last, thread⟩ := by
  induction labels generalizing s
  case nil =>
    cases List.foldlM_nil_eq_ok.mp hs
    exact ⟨_, _, rfl, wf, h, by simp⟩
  case cons l ls ih =>
    subst hu
    have ⟨s₁, h₁, hs⟩ := List.foldlM_cons_eq_ok.mp hs
    obtain ⟨tls₁, stats₁, rfl, wf₁, ht₁, hm₁⟩ := enterMailbox wf h sortKey h₁
    have sortKey₁ : ∀ tl ∈ tls₁, tl.threadId = thread → tl.lastMessageAt = last := by
      intro tl htl hid
      obtain htl | rfl := (hm₁ tl).mp htl
      · exact sortKey tl htl hid
      · rfl
    obtain ⟨tls, stats, rfl, wf', ht, hm⟩ := ih wf₁ ht₁ sortKey₁ rfl hs
    refine ⟨tls, stats, rfl, wf', ht, fun tl => (hm tl).trans ?_⟩
    simp only [hm₁ tl, List.mem_cons, or_assoc, exists_eq_or_imp]

theorem addThreadLabel_ok (last : Millis) (unread : Bool) (hl : ∃ l ∈ s.labels, l.id = label)
    (ht : ∃ t ∈ s.threads, t.id = thread) (hout : ¬s.isInMailbox thread label) :
    ∃ s', s.addThreadLabel label last thread unread = .ok s' ∧ s'.labels = s.labels ∧
      s'.threads = s.threads ∧
      ∀ tl ∈ s'.threadLabels, tl ∈ s.threadLabels ∨ tl = ⟨label, last, thread⟩ := by
  have hn : ∀ tl ∈ s.threadLabels, tl ≠ ⟨label, last, thread⟩ :=
    fun tl htl he => hout ⟨tl, htl, he ▸ rfl, he ▸ rfl⟩
  have he : ((s.labels.find? label).isSome && (s.threads.find? thread).isSome) = true := by
    rw [Bool.and_eq_true]
    exact ⟨by simpa only [Option.isSome_iff_exists, Table.find?_eq_some_iff] using hl,
      find?_threads_isSome.mpr ht⟩
  rw [Store.addThreadLabel, dif_pos hn, if_pos he]
  exact ⟨_, rfl, rfl, rfl, fun tl htl => (Table.mem_insert (h := hn)).mp htl⟩

theorem enterMailboxes_ok (last : Millis) (unread : Bool) {labels : List LabelRow} (hl : ∀ l ∈ labels, l ∈ s.labels)
    (ht : ∃ t ∈ s.threads, t.id = thread) (hn : (labels.map (·.id)).Nodup)
    (hout : ∀ l ∈ labels, ¬s.isInMailbox thread l.id) :
    ∃ s', labels.foldlM (·.addThreadLabel ·.id last thread unread) s = .ok s' := by
  induction labels generalizing s
  case nil => exact ⟨s, rfl⟩
  case cons l ls ih =>
    rw [List.map_cons, List.nodup_cons] at hn
    have ⟨s₁, h₁, labels₁, threads₁, htl₁⟩ := addThreadLabel_ok last unread
      ⟨l, hl l List.mem_cons_self, rfl⟩ ht (hout l List.mem_cons_self)
    have out₁ : ∀ l' ∈ ls, ¬s₁.isInMailbox thread l'.id := by
      rintro l' hl' ⟨tl, htl, htid, hid⟩
      obtain htl | rfl := htl₁ tl htl
      · exact hout l' (List.mem_cons_of_mem _ hl') ⟨tl, htl, htid, hid⟩
      · exact hn.left (List.mem_map.mpr ⟨l', hl', hid.symm⟩)
    have ⟨s', hs⟩ := ih (fun l' hl' => labels₁ ▸ hl l' (List.mem_cons_of_mem _ hl'))
      (threads₁ ▸ ht) hn.right out₁
    exact ⟨s', List.foldlM_cons_eq_ok.mpr ⟨s₁, h₁, hs⟩⟩

-- What the new mailboxes of a thread are: the ones it belongs in.
theorem mem_newMailboxes (wf : s.WellFormed) (hs : s.newMailboxes thread = .ok new) :
    (∀ l, l ∈ new ↔ l ∈ s.labels ∧ s.belongsIn thread l.gmailId) ∧
    (s.belongsInArchive thread → ∃ l ∈ s.labels, l.gmailId = ARCHIVE_LABEL) := by
  have archived : (INBOX ∉ s.labelIdsOn thread && !s.whollySpamOrTrash thread) =
      true ↔ s.belongsInArchive thread = true := by
    rw [belongsInArchive_iff, ← wf.mem_labelIdsOn, Bool.and_eq_true, decide_eq_true_eq]
    refine and_congr_right fun _ => ?_
    simp only [whollySpamOrTrash, Bool.not_eq_true', List.all_eq_false, isSpamOrTrash_iff, not_or]
  rw [newMailboxes] at hs
  split at hs
  case isTrue ha =>
    have ha := archived.mp ha
    split at hs <;> cases hs
    case h_1 archive harchive =>
      have ⟨hl, hg⟩ := wf.label?_eq_some.mp harchive
      refine ⟨fun l => ?_, fun _ => ⟨archive, hl, hg⟩⟩
      simp only [List.mem_filter, Bool.or_eq_true, decide_eq_true_eq, wf.mem_labelsOn, belongsIn,
        Table.mem_rows, ha, and_true]
      refine and_congr_right fun hl' => or_congr (and_iff_right hl') ?_
      exact ⟨fun he => Table.eq_of_key_eq hl' hl he ▸ hg,
        fun he => wf.labelIds l hl' archive hl (he.trans hg.symm) ▸ rfl⟩
  case isFalse ha =>
    cases hs
    have ha : ¬s.belongsInArchive thread := fun hb => ha (archived.mpr hb)
    refine ⟨fun l => ?_, fun hb => absurd hb ha⟩
    simp only [List.mem_filter, decide_eq_true_eq, wf.mem_labelsOn, belongsIn, Table.mem_rows, ha,
      Bool.false_eq_true, and_false, or_false]
    exact and_congr_right fun hl => and_iff_right hl

-- Setting the row of a thread that is in no mailbox changes no mailbox's counts.
theorem Uncounted.updateThread (h : s.Uncounted thread dirty) {messages : List MessageRow}
    (hne : messages ≠ []) :
    (s.updateThread thread messages hne).WellFormed ∧
    (s.updateThread thread messages hne).labelStat =
      (s.updateThread thread messages hne).labelTally := by
  have old : ∀ {t}, (∃ t' ∈ s.threads, t'.id = t) →
      ∃ t' ∈ (s.updateThread thread messages hne).threads, t'.id = t := by
    rintro _ ⟨t, ht, rfl⟩
    exact Table.exists_mem_update (fun _ => ThreadRow.aggregate_id) ht (by split <;> rfl)
  have new : ∀ t ∈ (s.updateThread thread messages hne).threads,
      ∃ t' ∈ s.threads, t'.id = t.id ∧ t'.gmailId = t.gmailId := by
    simp only [Store.updateThread, Table.mem_update]
    rintro t (⟨ht, _⟩ | ⟨t', ht', _, rfl⟩)
    · exact ⟨t, ht, rfl, rfl⟩
    · exact ⟨t', ht', rfl, rfl⟩
  refine ⟨{ h.wf with threadIds := ?_, messageThread := ?_, mailboxThread := ?_ }, ?_⟩
  · intro a ha b hb hab
    obtain ⟨a', ha', hai, hag⟩ := new a ha
    obtain ⟨b', hb', hbi, hbg⟩ := new b hb
    have he := h.wf.threadIds a' ha' b' hb' (by rw [hag, hbg, hab])
    exact Table.eq_of_key_eq ha hb (by rw [← hai, ← hbi, he])
  · exact fun m hm => old (h.wf.messageThread m hm)
  · exact fun tl htl => old (h.wf.mailboxThread tl htl)
  · rw [Store.updateThread, labelTally_congr]
    · exact h.labels
    · intro tl htl
      rw [Table.find?_update]
      cases hr : s.threads.find? tl.threadId
      case none     => rfl
      case some row => simp [Table.find?_key_eq hr, h.unboxed tl htl]

theorem Consistent.countInboxCategory {category : Option LabelId} {n u : Int} (wf : s.WellFormed)
    (labels : s.labelStat = s.labelTally) (categories : bump s.categoryStat category n u = s.categoryTally)
    (settled : ∀ t ∈ s.threads, t.id ∉ dirty → s.Settled t) :
    (match category with
      | some category => s.countInboxCategory category n u
      | none          => s).Consistent dirty := by
  cases category
  case none =>
    exact ⟨wf, labels, by rwa [bump_none] at categories, settled⟩
  case some category =>
    exact ⟨wf.countInboxCategory, labels, categoryStat_countInboxCategory.trans categories,
      fun t ht hd => (settled t ht hd).frame wf wf.countInboxCategory rfl rfl (fun _ _ _ => Iff.rfl)
        (fun _ _ => Iff.rfl)⟩

-- Counting a thread again by its messages settles it.
theorem Uncounted.countThread (h : s.Uncounted thread dirty) (hne : s.threadMessages thread ≠ [])
    (hs : s.countThread thread (s.threadMessages thread) hne = .ok (s', new)) :
    s'.Consistent (dirty \ {thread}) ∧ SameMail s s' := by
  rw [Store.countThread] at hs
  obtain ⟨new', hnew, hs⟩ := Except.bind_eq_ok.mp hs
  obtain ⟨s₂, hadd, hs⟩ := Except.bind_eq_ok.mp hs
  obtain ⟨row, hr, hid⟩ : ∃ row ∈ s.threads, row.id = thread := by
    obtain ⟨m, hm⟩ := List.exists_mem_of_ne_nil _ hne
    obtain ⟨hm, ht⟩ := mem_messagesOf.mp ((List.mem_insertionSort _).mp hm)
    exact ht ▸ h.wf.messageThread m hm
  subst hid
  obtain ⟨wf₁, labels₁⟩ := h.updateThread hne
  have find_row : (s.updateThread row.id (s.threadMessages row.id) hne).threads.find? row.id =
      some (row.aggregate (s.threadMessages row.id) hne (s.labelIdsOn row.id)) := by
    rw [Store.updateThread, Table.find?_update, Table.find?_key hr]
    simp
  obtain ⟨tls, stats, rfl, wf₂, labels₂, hm⟩ := enterMailboxes wf₁ labels₁
    (fun tl htl ht => absurd ht (h.unboxed tl htl)) (by rw [isUnread, find_row]; rfl) hadd
  obtain ⟨hnew, harchive⟩ := mem_newMailboxes wf₁ hnew
  have categories : bump s.categoryStat (inboxCategory (s.labelIdsOn row.id)) 1
      (decide ((s.threadMessages row.id).countP (!·.isRead) > 0)).toNat =
      (s.updateThread row.id (s.threadMessages row.id) hne).categoryTally := by
    rw [h.categories]
    symm
    exact Table.tally_update (fun _ => ThreadRow.aggregate_id) hr
  have settled : ∀ t ∈ (s.updateThread row.id (s.threadMessages row.id) hne).threads,
      t.id ∉ dirty \ {row.id} →
      { s.updateThread row.id (s.threadMessages row.id) hne with
        threadLabels := tls, labelStats := stats : Store }.Settled t := by
    intro t ht hd
    have find_t := Table.find?_key ht
    by_cases hid : t.id = row.id
    case pos =>
      rw [hid, find_row, Option.some.injEq] at find_t
      subst find_t
      refine ⟨hne, rfl, ?mailboxes, ?sortKey, harchive⟩
      case mailboxes =>
        intro l hl
        constructor
        · rintro ⟨tl, htl, ht, hlid⟩
          obtain htl | ⟨l', hl', rfl⟩ := (hm tl).mp htl
          · exact absurd ht (h.unboxed tl htl)
          · obtain ⟨hl', hb⟩ := (hnew l').mp hl'
            exact Table.eq_of_key_eq hl' hl hlid ▸ hb
        · intro hb
          exact ⟨_, (hm _).mpr (.inr ⟨l, (hnew l).mpr ⟨hl, hb⟩, rfl⟩), rfl, rfl⟩
      case sortKey =>
        intro tl htl ht
        obtain htl | ⟨l', _, rfl⟩ := (hm tl).mp htl
        · exact absurd ht (h.unboxed tl htl)
        · rfl
    case neg =>
      rw [Store.updateThread, Table.find?_update] at find_t
      obtain ⟨t', ht', he⟩ := Option.map_eq_some_iff.mp find_t
      rw [if_neg (by simpa [Table.find?_key_eq ht'] using hid)] at he
      subst he
      have hd : t'.id ∉ dirty := fun hmem => hd ⟨hmem, hid⟩
      refine (h.settled t' (Table.find?_mem ht') hd hid).frame h.wf wf₂ rfl rfl
        (fun _ _ _ => Iff.rfl) fun tl htl => (hm tl).trans (or_iff_left ?_)
      rintro ⟨l, _, rfl⟩
      exact hid htl.symm
  have done := Consistent.countInboxCategory wf₂ labels₂ categories settled
  have threadIds : ∀ thread, (s.updateThread row.id (s.threadMessages row.id) hne).threadIdOf thread =
      s.threadIdOf thread := by
    intro thread
    simp only [threadIdOf, Store.updateThread, Table.find?_update, Option.map_map]
    congr 1
    funext t
    simp only [Function.comp_apply]
    split <;> rfl
  cases hc : inboxCategory (s.labelIdsOn row.id) <;> simp only [hc] at hs done <;>
  · cases Except.pure_eq_ok.mp hs
    exact ⟨done, ⟨rfl, rfl, rfl, rfl, fun m _ => threadIds m.threadId⟩⟩

theorem newMailboxes_ok (wf : s.WellFormed) (ha : ∃ l ∈ s.labels, l.gmailId = ARCHIVE_LABEL)
    (thread : Rowid) :
    ∃ new, s.newMailboxes thread = .ok new := by
  have ⟨l, hl, hg⟩ := ha
  rw [newMailboxes, wf.label?_eq_some.mpr ⟨hl, hg⟩]
  split <;> exact ⟨_, rfl⟩

theorem newMailboxes_nodup (hs : s.newMailboxes thread = .ok new) : (new.map (·.id)).Nodup := by
  rw [newMailboxes] at hs
  split at hs
  · split at hs <;> cases hs
    exact (List.filter_sublist.map _).nodup s.labels.nodup
  · cases hs
    exact (List.filter_sublist.map _).nodup s.labels.nodup

-- Counting a thread again cannot fail while the Archive's label is there.
theorem Uncounted.countThread_ok (h : s.Uncounted thread dirty)
    (ha : ∃ l ∈ s.labels, l.gmailId = ARCHIVE_LABEL) (hne : s.threadMessages thread ≠ []) :
    ∃ r, s.countThread thread (s.threadMessages thread) hne = .ok r := by
  have ⟨wf₁, _⟩ := h.updateThread hne
  have ⟨m, hm⟩ := List.exists_mem_of_ne_nil _ hne
  have ⟨hm, ht⟩ := mem_messagesOf.mp ((List.mem_insertionSort _).mp hm)
  have exists_thread : ∃ t ∈ (s.updateThread thread (s.threadMessages thread) hne).threads,
      t.id = thread := ht ▸ wf₁.messageThread m hm
  have ⟨new, hnew⟩ := newMailboxes_ok wf₁ ha thread
  have ⟨hmem, _⟩ := mem_newMailboxes wf₁ hnew
  have ⟨s₂, h₂⟩ := enterMailboxes_ok (lastCounted (s.threadMessages thread) hne).internalDate
    (decide ((s.threadMessages thread).countP (!·.isRead) > 0))
    (fun l hl => ((hmem l).mp hl).left) exists_thread (newMailboxes_nodup hnew)
    (fun l _ ⟨tl, htl, htid, _⟩ => h.unboxed tl htl htid)
  refine Except.bind_ok hnew (Except.bind_ok h₂ ?_)
  split <;> exact ⟨_, rfl⟩

theorem Consistent.recomputeThread (h : s.Consistent dirty)
    (hs : s.recomputeThread thread gmailId changes = .ok (s', changes')) :
    s'.Consistent (dirty \ {thread}) ∧ SameMail s s' := by
  have ⟨_, _, _, he, hu⟩ := h.uncountThread thread
  have messages : (s.uncountThread thread).messagesOf thread = s.messagesOf thread := by
    rw [he]
    rfl
  have ordered : (s.uncountThread thread).threadMessages thread = s.threadMessages thread :=
    threadMessages_congr messages
  have same : SameMail s (s.uncountThread thread) := by
    rw [he]
    exact ⟨rfl, rfl, rfl, rfl, fun _ _ => rfl⟩
  rw [Store.recomputeThread] at hs
  split at hs
  case isTrue hm =>
    cases hs
    have hm : (s.uncountThread thread).messagesOf thread = [] := by
      rw [messages]
      exact List.eq_nil_of_length_eq_zero (by simpa [threadMessages] using congrArg List.length hm)
    refine ⟨hu.deleteThread hm, same.trans ?_⟩
    rw [hu.deleteThread_eq hm]
    refine ⟨rfl, rfl, rfl, rfl, fun m hm' => ?_⟩
    have hne : m.threadId ≠ thread := fun ht => List.not_mem_nil (hm ▸ mem_messagesOf.mpr ⟨hm', ht⟩)
    exact congrArg _ (Table.find?_eq_of_mem_iff fun t ht => by simp [Table.mem_delete, ht, hne])
  case isFalse hne =>
    have ⟨⟨tx, new⟩, hc, hs⟩ := Except.bind_eq_ok.mp hs
    cases Except.pure_eq_ok.mp hs
    simp only [← ordered] at hc
    have ⟨hc, hm⟩ := hu.countThread _ hc
    exact ⟨hc, same.trans hm⟩

theorem Consistent.recomputeThread_ok (h : s.Consistent dirty) (thread : Rowid) (gmailId : ThreadId)
    (changes : ThreadChanges) (ha : ∃ l ∈ s.labels, l.gmailId = ARCHIVE_LABEL) :
    ∃ r, s.recomputeThread thread gmailId changes = .ok r := by
  have ⟨_, _, _, he, hu⟩ := h.uncountThread thread
  have ha' : ∃ l ∈ (s.uncountThread thread).labels, l.gmailId = ARCHIVE_LABEL := by
    rw [he]
    exact ha
  have ordered : (s.uncountThread thread).threadMessages thread = s.threadMessages thread := by
    rw [he]
    rfl
  rw [Store.recomputeThread]
  split
  case isTrue       => exact ⟨_, rfl⟩
  case isFalse hne =>
    have ⟨r, hr⟩ := hu.countThread_ok ha' (ordered ▸ hne)
    simp only [ordered] at hr
    exact Except.bind_ok hr ⟨_, rfl⟩

end Store

namespace MailWriter

variable {w : MailWriter}

-- A transaction that ends with `finish` leaves no thread behind.
theorem finish_consistent (h : w.tx.Consistent {t | w.isDirty t}) (hs : w.finish = .ok (s', changes)) :
    s'.Consistent ∅ ∧ w.tx.SameMail s' := by
  rw [MailWriter.finish] at hs
  have loop : ∀ (dirty : List (Rowid × ThreadId)) (s : Store) (changes : ThreadChanges) s' changes',
      s.Consistent {t | ∃ g, (t, g) ∈ dirty} →
      dirty.foldlM (fun p d => p.1.recomputeThread d.1 d.2 p.2) (s, changes) = .ok (s', changes') →
      s'.Consistent ∅ ∧ s.SameMail s' := by
    intro dirty
    induction dirty
    case nil =>
      intro s changes s' changes' h hs
      cases List.foldlM_nil_eq_ok.mp hs
      exact ⟨h.mono (by simp), .rfl⟩
    case cons d ds ih =>
      intro s changes s' changes' h hs
      obtain ⟨⟨s₁, _⟩, h₁, hs⟩ := List.foldlM_cons_eq_ok.mp hs
      obtain ⟨h₁, same⟩ := h.recomputeThread h₁
      suffices left : s₁.Consistent {t | ∃ g, (t, g) ∈ ds} by
        obtain ⟨h', same'⟩ := ih s₁ _ s' changes' left hs
        exact ⟨h', same.trans same'⟩
      refine h₁.mono ?_
      rintro t ⟨⟨g, hg⟩, hne⟩
      obtain rfl | hg := List.mem_cons.mp hg
      · exact absurd rfl hne
      · exact ⟨g, hg⟩
  exact loop w.dirty w.tx {} s' changes h hs

theorem finish_ok (h : w.tx.Consistent {t | w.isDirty t})
    (ha : ∃ l ∈ w.tx.labels, l.gmailId = ARCHIVE_LABEL) : ∃ r, w.finish = .ok r := by
  have loop : ∀ (dirty : List (Rowid × ThreadId)) (s : Store) (changes : ThreadChanges) d,
      s.Consistent d → (∃ l ∈ s.labels, l.gmailId = ARCHIVE_LABEL) →
      ∃ r, dirty.foldlM (fun p d => p.1.recomputeThread d.1 d.2 p.2) (s, changes) = .ok r := by
    intro dirty
    induction dirty
    case nil => exact fun _ _ _ _ _ => ⟨_, rfl⟩
    case cons d ds ih =>
      intro s changes dirty h ha
      obtain ⟨⟨s₁, c₁⟩, h₁⟩ := h.recomputeThread_ok d.1 d.2 changes ha
      obtain ⟨hc, same⟩ := h.recomputeThread h₁
      obtain ⟨r, hr⟩ := ih s₁ c₁ _ hc (same.labels ▸ ha)
      exact ⟨r, List.foldlM_cons_eq_ok.mpr ⟨_, h₁, hr⟩⟩
  exact loop w.dirty w.tx {} _ h ha

end MailWriter
end Kaluta
