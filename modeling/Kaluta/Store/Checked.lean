import Mathlib.Data.List.Find
import Kaluta.Store.Recomputed

namespace Kaluta

open SystemLabels

namespace Store

variable {s : Store} {t : ThreadRow} {g : LabelId} {l : LabelRow} {thread : Rowid}

theorem not_mem_categories : PRIMARY ∉ CATEGORIES := by
  decide

theorem inboxCategory_mem {labels : List LabelId} (h : inboxCategory labels = some c) :
    c ∈ PRIMARY :: CATEGORIES := by
  rw [inboxCategory] at h
  split at h <;> cases h
  cases hf : CATEGORIES.find? (· ∈ labels)
  case none   => exact List.mem_cons_self
  case some c => exact List.mem_cons_of_mem _ (List.mem_of_find?_eq_some hf)

-- A thread is in a category when it is in the Inbox and the first category label it carries is
-- that one, or none for Primary.
theorem inboxCategory_eq_some {labels : List LabelId} {category : LabelId} :
    inboxCategory labels = some category ↔
      INBOX ∈ labels ∧ (CATEGORIES.find? (· ∈ labels)).getD PRIMARY = category := by
  rw [inboxCategory]
  split
  case isTrue hi  => simp [hi]
  case isFalse hi => simp [hi]

namespace Settled

variable (h : s.Settled t) (wf : s.WellFormed)
include h wf

omit wf in
theorem labelIds_eq : t.labelIds = s.labelIdsOn t.id :=
  congrArg ThreadRow.labelIds h.row

theorem inMailbox_iff (ha : g ≠ ARCHIVE_LABEL) : s.inMailbox t.id g ↔ g ∈ t.labelIds := by
  rw [h.labelIds_eq, wf.mem_labelIdsOn]
  simp only [inMailbox, List.any_eq_true, Bool.and_eq_true, decide_eq_true_eq, Table.mem_rows]
  constructor
  · rintro ⟨tl, htl, ht, l, hl, hid, rfl⟩
    exact ((h.mailboxes l hl).mp ⟨tl, htl, ht, hid.symm⟩).resolve_right fun hb => ha hb.left
  · intro hg
    have ⟨l, hl, hlg⟩ : ∃ l ∈ s.labels, l.gmailId = g := by
      obtain ⟨m, _, l, hl, hlg, _⟩ := hg
      exact ⟨l, hl, hlg⟩
    have ⟨tl, htl, ht, hid⟩ := (h.mailboxes l hl).mpr (.inl (hlg ▸ hg))
    exact ⟨tl, htl, ht, l, hl, hid.symm, hlg⟩

theorem inArchive_iff : s.inMailbox t.id ARCHIVE_LABEL ↔ s.belongsInArchive t.id := by
  simp only [inMailbox, List.any_eq_true, Bool.and_eq_true, decide_eq_true_eq, Table.mem_rows]
  constructor
  · rintro ⟨tl, htl, ht, l, hl, hid, hg⟩
    obtain ⟨m, _, hm⟩ | ⟨_, hb⟩ := (h.mailboxes l hl).mp ⟨tl, htl, ht, hid.symm⟩
    · exact absurd (hg ▸ hm) wf.not_hasLabel_archive
    · exact hb
  · intro hb
    have ⟨l, hl, hg⟩ := h.archive hb
    have ⟨tl, htl, ht, hid⟩ := (h.mailboxes l hl).mpr (.inr ⟨hg, hb⟩)
    exact ⟨tl, htl, ht, l, hl, hid.symm, hg⟩

theorem checkThread_eq : s.checkThread t = [] := by
  have messages : (s.threadMessages t.id).Perm (s.messagesOf t.id) := List.perm_insertionSort _ _
  have nonempty : s.messagesOf t.id ≠ [] := fun he =>
    h.nonempty (List.perm_nil.mp (he ▸ messages))
  have unreadCount : t.unreadCount = (s.messagesOf t.id).countP (!·.isRead) :=
    (congrArg ThreadRow.unreadCount h.row).trans (messages.countP_eq _)
  have isStarred : t.isStarred = (s.messagesOf t.id).any (·.isStarred) := by
    refine (congrArg ThreadRow.isStarred h.row).trans ?_
    exact Bool.eq_iff_iff.mpr (by simp [ThreadRow.aggregate, messages.mem_iff])
  have carried : ∀ l ∈ s.labels, ((s.messagesOf t.id).any fun m => s.carries m.id l.id) = true ↔
      s.hasLabelOn t.id l.gmailId := by
    intro l hl
    simp only [List.any_eq_true, carries_iff, hasLabelOn, wf.hasLabel_iff hl]
  have boxed : ∀ l : LabelRow, (s.threadLabels.rows.any fun tl =>
      tl.threadId = t.id && tl.labelId = l.id) = true ↔ s.isInMailbox t.id l.id := by
    intro l
    simp [isInMailbox, Table.mem_rows]
  simp only [checkThread, List.append_eq_nil_iff, List.map_eq_nil_iff, List.filter_eq_nil_iff,
    ite_eq_right_iff, List.cons_ne_nil, imp_false, List.isEmpty_iff, Bool.and_eq_true,
    Bool.not_eq_true', decide_eq_true_eq, ne_eq, not_and, not_not, Table.mem_rows]
  refine ⟨⟨⟨⟨⟨⟨nonempty, fun _ => unreadCount⟩, fun _ => isStarred⟩, ?missing⟩, ?extra⟩, ?key⟩, ?archive⟩
  case missing =>
    intro l hl hc
    rw [Bool.eq_false_iff, not_not, boxed, h.mailboxes l hl]
    exact .inl ((carried l hl).mp hc)
  case extra =>
    rintro l hl ⟨ha, hb⟩
    rw [Bool.eq_false_iff, not_not, carried l hl]
    exact ((h.mailboxes l hl).mp ((boxed l).mp hb)).resolve_right fun hb => ha hb.left
  case key => exact fun tl htl ht => h.sortKey tl htl ht
  case archive => exact Bool.eq_iff_iff.mpr (h.inArchive_iff wf)

end Settled
namespace Consistent

variable (h : s.Consistent ∅)
include h

theorem settled_of_mem (ht : t ∈ s.threads) : s.Settled t :=
  h.settled t ht (Set.notMem_empty _)

theorem checkLabel_eq (l : LabelRow) : s.checkLabel l = [] := by
  have total : s.threadLabels.count (fun tl => tl.labelId = l.id &&
      (s.threads.find? tl.threadId).isSome) = s.threadLabels.count fun tl => tl.labelId = l.id := by
    refine Table.count_congr fun tl htl => ?_
    simp [find?_threads_isSome.mpr (h.wf.mailboxThread tl htl)]
  have : s.labelStat l.id = s.countLabel l.id := by
    rw [h.labels, labelTally, Table.tally, countLabel, total]
    simp
  rw [checkLabel, if_neg (not_not.mpr this)]

-- The rows of a mailbox stand for the threads that carry its label.
theorem count_mailbox (hl : l ∈ s.labels) (ha : l.gmailId ≠ ARCHIVE_LABEL) (p : Rowid → Bool) :
    s.threadLabels.count (fun tl => tl.labelId = l.id && p tl.threadId) =
    s.threads.count (fun t => l.gmailId ∈ t.labelIds && p t.id) := by
  refine Table.count_eq_count (f := (·.threadId)) (g := (·.id)) ?_ ?_ ?_
  · intro a ha b hb hpa hpb hid
    simp only [Bool.and_eq_true, decide_eq_true_eq] at hpa hpb
    exact h.wf.mailboxOnce a ha b hb (hpa.left.trans hpb.left.symm) hid
  · exact fun a ha b hb _ _ => Table.eq_of_key_eq ha hb
  · intro thread
    simp only [Bool.and_eq_true, decide_eq_true_eq]
    constructor
    · rintro ⟨tl, htl, ⟨hid, hp⟩, rfl⟩
      have ⟨t, ht, htid⟩ := h.wf.mailboxThread tl htl
      have hs := h.settled_of_mem ht
      refine ⟨t, ht, ⟨?_, htid ▸ hp⟩, htid⟩
      rw [hs.labelIds_eq, h.wf.mem_labelIdsOn]
      exact ((hs.mailboxes l hl).mp ⟨tl, htl, htid.symm, hid⟩).resolve_right fun hb => ha hb.left
    · rintro ⟨t, ht, ⟨hg, hp⟩, rfl⟩
      have hs := h.settled_of_mem ht
      rw [hs.labelIds_eq, h.wf.mem_labelIdsOn] at hg
      have ⟨tl, htl, htid, hid⟩ := (hs.mailboxes l hl).mpr (.inl hg)
      exact ⟨tl, htl, ⟨hid, htid ▸ hp⟩, htid⟩

end Consistent

theorem categoryCounts_congr
    (h : ∀ category ∈ PRIMARY :: CATEGORIES, lookupCategory r₁ category = lookupCategory r₂ category) :
    categoryCounts r₁ = categoryCounts r₂ := by
  rw [categoryCounts, categoryCounts]
  exact List.map_congr_left fun category hc => by rw [h category hc]

theorem lookupCategory_stored (s : Store) (category : LabelId) :
    lookupCategory (s.inboxCategoryStats.rows.map fun stat =>
      (some stat.category, stat.threadCount, stat.unreadThreadCount)) category =
    s.categoryStat category := by
  simp only [lookupCategory, categoryStat, Table.find?, List.find?_map, Function.comp_def,
    Option.getD_some]
  cases s.inboxCategoryStats.rows.find? (·.category = category) <;> rfl

-- Grouping rows by category and looking a category up counts the rows of that category.
theorem lookupCategory_grouped {α : Type} (rows : List (α × Option LabelId)) (unread : α → Bool)
    (hc : ∀ row ∈ rows, row.2 ≠ some PRIMARY) (category : LabelId) :
    lookupCategory ((rows.map Prod.snd).dedup.map fun c =>
      (c, (rows.countP (fun (_, c') => c' = c) : Int),
        (rows.countP (fun (a, c') => c' = c && unread a) : Int))) category =
    ((rows.countP (fun (_, c) => c.getD PRIMARY = category) : Int),
      (rows.countP (fun (a, c) => c.getD PRIMARY = category && unread a) : Int)) := by
  have inj : ∀ c c' : Option LabelId, c ≠ some PRIMARY → c' ≠ some PRIMARY →
      c.getD PRIMARY = c'.getD PRIMARY → c = c' := by
    rintro (_ | c) (_ | c') hc hc' he <;> simp_all
  simp only [lookupCategory, List.find?_map, Function.comp_def]
  cases hf : (rows.map Prod.snd).dedup.find? (fun c => c.getD PRIMARY = category)
  case none =>
    have none_of : ∀ row ∈ rows, row.2.getD PRIMARY ≠ category := by
      intro row hr he
      have := List.find?_eq_none.mp hf row.2 (List.mem_dedup.mpr (List.mem_map_of_mem hr))
      exact this (decide_eq_true he)
    simp only [Option.map_none, Prod.mk.injEq]
    constructor <;>
    · symm
      simp only [Nat.cast_eq_zero, List.countP_eq_zero, Bool.and_eq_true, decide_eq_true_eq]
      exact fun row hr => by simp [none_of row hr]
  case some c =>
    have hcat : c.getD PRIMARY = category := by simpa using List.find?_some hf
    obtain ⟨row, hr, rfl⟩ := List.mem_map.mp (List.mem_dedup.mp (List.mem_of_find?_eq_some hf))
    have same : ∀ row' ∈ rows, row'.2 = row.2 ↔ row'.2.getD PRIMARY = category := by
      intro row' hr'
      rw [← hcat]
      exact ⟨fun he => he ▸ rfl, inj _ _ (hc row' hr') (hc row hr)⟩
    simp only [Option.map_some, Prod.mk.injEq, Nat.cast_inj]
    constructor
    · exact List.countP_congr fun row' hr' => by simp [same row' hr']
    · exact List.countP_congr fun row' hr' => by simp [same row' hr']

namespace Consistent

variable (h : s.Consistent ∅)
include h

omit h in
theorem isUnread_eq (ht : t ∈ s.threads) : s.isUnread t.id = t.unread := by
  simp [isUnread, Table.find?_key ht]

-- The Inbox's rows by category are the threads by category.
theorem countP_inboxThreads (unread : ThreadLabel → Bool) (p : Rowid → Bool)
    (hp : ∀ tl ∈ s.threadLabels, unread tl = p tl.threadId) (category : LabelId) :
    s.inboxThreads.countP (fun (tl, c) => c.getD PRIMARY = category && unread tl) =
    s.threads.count (fun t => inboxCategory t.labelIds = some category && p t.id) := by
  have tab : ∀ t ∈ s.threads,
      CATEGORIES.find? (s.inMailbox t.id) = CATEGORIES.find? (· ∈ t.labelIds) := by
    intro t ht
    have : ∀ c ∈ CATEGORIES, s.inMailbox t.id c = decide (c ∈ t.labelIds) := by
      intro c hc
      have ha : c ≠ ARCHIVE_LABEL := fun he => absurd (he ▸ hc) (by decide)
      exact Bool.eq_iff_iff.mpr (by simpa using (h.settled_of_mem ht).inMailbox_iff h.wf ha)
    exact List.find?_congr this
  rw [inboxThreads]
  split
  case h_1 inbox hi =>
    have ⟨hi, hg⟩ := h.wf.label?_eq_some.mp hi
    have rows : s.threadLabels.count (fun tl => tl.labelId = inbox.id &&
        ((CATEGORIES.find? (s.inMailbox tl.threadId)).getD PRIMARY = category && p tl.threadId)) =
        s.threads.count (fun t => inboxCategory t.labelIds = some category && p t.id) := by
      rw [h.count_mailbox hi (hg ▸ by decide)
        (fun t => (CATEGORIES.find? (s.inMailbox t)).getD PRIMARY = category && p t)]
      refine Table.count_congr fun t ht => ?_
      rw [tab t ht, hg, ← Bool.and_assoc]
      congr 1
      exact Bool.eq_iff_iff.mpr (by simp [inboxCategory_eq_some])
    rw [← rows, List.countP_map, List.countP_filter]
    refine Table.count_congr fun tl htl => ?_
    have ht := find?_threads_isSome.mpr (h.wf.mailboxThread tl htl)
    simp [ht, hp tl htl, Bool.and_comm]
  case h_2 hn =>
    symm
    refine Table.count_eq_zero.mpr fun t ht => ?_
    have : INBOX ∉ t.labelIds := by
      rw [(h.settled_of_mem ht).labelIds_eq, h.wf.mem_labelIdsOn]
      rintro ⟨m, _, l, hl, hg, _⟩
      exact label?_eq_none.mp hn l hl hg
    simp [inboxCategory, this]

theorem storedInboxCategories_eq : s.storedInboxCategories = s.countInboxCategories := by
  refine categoryCounts_congr fun category _ => ?_
  refine (lookupCategory_stored s category).trans ?_
  refine Eq.trans ?_ (lookupCategory_grouped s.inboxThreads (s.isUnread ·.threadId) ?_ category).symm
  · rw [h.categories, categoryTally, Table.tally]
    have total := h.countP_inboxThreads (fun _ => true) (fun _ => true) (fun _ _ => rfl) category
    have unread := h.countP_inboxThreads (s.isUnread ·.threadId) s.isUnread (fun _ _ => rfl) category
    simp only [Bool.and_true] at total
    rw [total, unread]
    congr 2
    exact Table.count_congr fun t ht => by rw [isUnread_eq ht]
  · intro row hr
    rw [inboxThreads] at hr
    split at hr
    case h_1 =>
      obtain ⟨tl, _, rfl⟩ := List.mem_map.mp hr
      exact fun hf => not_mem_categories (List.mem_of_find?_eq_some hf)
    case h_2 => cases hr

theorem checkCategories_eq : s.checkCategories = [] := by
  rw [checkCategories, h.storedInboxCategories_eq, List.zip, List.zipWith_self]
  simp [List.filter_map, Function.comp_def]

theorem checkStrayCategories_eq : s.checkStrayCategories = [] := by
  rw [checkStrayCategories, List.map_eq_nil_iff, List.filter_eq_nil_iff]
  intro stat hs
  have hc := congrFun h.categories stat.category
  rw [categoryStat, Table.find?_key (t := s.inboxCategoryStats) hs] at hc
  by_cases known : stat.category ∈ PRIMARY :: CATEGORIES
  case pos => simp [List.mem_cons.mp known]
  case neg =>
    have : ∀ t : ThreadRow, inboxCategory t.labelIds ≠ some stat.category :=
      fun t he => known (inboxCategory_mem he)
    simp only [categoryTally, Table.tally, this, Prod.mk.injEq] at hc
    simp [hc, Table.count]

-- A consistent store whose messages are indexed passes the check, and every thread's row is what its
-- messages make it.
theorem check_eq (hi : s.Indexed ∅) : s.check = [] := by
  have fts : s.messagesFts.rows.length = s.messages.rows.length := by
    rw [← Table.count_true, ← Table.count_true]
    refine Table.count_eq_count (f := id) (g := (·.id)) (fun _ _ _ _ _ _ => id)
      (fun a ha b hb _ _ => Table.eq_of_key_eq ha hb) fun id => ?_
    simpa using hi id (Set.notMem_empty _)
  have threads : s.threads.rows.flatMap s.checkThread = [] :=
    List.flatMap_eq_nil_iff.mpr fun t ht => (h.settled_of_mem ht).checkThread_eq h.wf
  have labels : s.labels.rows.flatMap s.checkLabel = [] :=
    List.flatMap_eq_nil_iff.mpr fun l _ => h.checkLabel_eq l
  simp [check, threads, labels, h.checkCategories_eq, h.checkStrayCategories_eq, fts]

end Consistent
end Store

-- The writes of the sync engine, of the composer and of the outbox.
inductive MailWrite
  | upsertLabels (labels : List Label)
  | retainLabels (keep : List LabelId)
  | upsertMessage (m : IncomingMessage)
  | modifyMessageLabels (id : MessageId) (add remove : List LabelId)
  | deleteMessage (id : MessageId)
  | adoptLocalCopy (localId sent : MessageId)

def MailWriter.write (w : MailWriter) : MailWrite → StoreResult MailWriter
  | .upsertLabels labels               => .ok (w.upsertLabels labels)
  | .retainLabels keep                 => .ok (w.retainLabels keep)
  | .upsertMessage m                   => w.upsertMessage m
  | .modifyMessageLabels id add remove => (w.modifyMessageLabels id add remove).map Prod.fst
  | .deleteMessage id                  => .ok (w.deleteMessage id).1
  | .adoptLocalCopy localId sent       => .ok (w.adoptLocalCopy localId sent)

-- Writes grouped into one transaction.
structure Transaction where
  storedLabels : StoredLabels
  writes       : List MailWrite

namespace Store

-- Runs a transaction that ends with `finish`. One that fails is rolled back.
def commit (s : Store) (t : Transaction) : Store :=
  let run : StoreResult (Store × ThreadChanges) := do
    let w ← t.writes.foldlM MailWriter.write { tx := s, storedLabels := t.storedLabels }
    w.finish
  match run with
  | .ok (s', _) => s'
  | .error _    => s

end Store

theorem MailWriter.Sound.write {w w' : MailWriter} {op : MailWrite} (h : w.Sound ∅ ∅)
    (hs : w.write op = .ok w') : w'.Sound ∅ ∅ := by
  cases op <;> simp only [MailWriter.write] at hs
  case upsertLabels labels          => cases hs; exact h.upsertLabels labels
  case retainLabels keep            => cases hs; exact h.retainLabels keep
  case upsertMessage m              => exact h.upsertMessage hs
  case deleteMessage id             => cases hs; exact h.deleteMessage id
  case adoptLocalCopy localId sent  => cases hs; exact h.adoptLocalCopy localId sent
  case modifyMessageLabels id add remove =>
    cases hm : w.modifyMessageLabels id add remove <;> rw [hm] at hs <;> cases hs
    exact h.modifyMessageLabels hm

namespace Store

variable {s : Store}

theorem commit_consistent (h : s.Consistent ∅) (hi : s.Indexed ∅) (t : Transaction) :
    (s.commit t).Consistent ∅ ∧ (s.commit t).Indexed ∅ := by
  simp only [commit]
  split
  case h_2 => exact ⟨h, hi⟩
  case h_1 hs =>
    have ⟨w, hw, hf⟩ := Except.bind_eq_ok.mp hs
    have start : ({ tx := s, storedLabels := t.storedLabels } : MailWriter).Sound ∅ ∅ :=
      ⟨h.mono (Set.empty_subset _), hi⟩
    have sound := List.foldlM_preserves (P := fun w => w.Sound ∅ ∅) hw
      (fun _ _ h hs => h.write hs) start
    have ⟨h', same⟩ := MailWriter.finish_consistent (by simpa using sound.consistent) hf
    exact ⟨h', by simpa [Indexed, same.messagesFts, same.messages] using sound.indexed⟩

-- However writes are grouped into transactions, the denormalized data of the store is what its
-- messages and their labels make it.
theorem check_commits (ts : List Transaction) :
    let s := ts.foldl commit init
    s.check = [] ∧
    (∀ id, id ∈ s.messagesFts ↔ ∃ m ∈ s.messages, m.id = id) ∧
    ∀ t ∈ s.threads, ∃ h : s.threadMessages t.id ≠ [],
      t = t.aggregate (s.threadMessages t.id) h (s.labelIdsOn t.id) := by
  have ⟨h, hi⟩ : (ts.foldl commit init).Consistent ∅ ∧ (ts.foldl commit init).Indexed ∅ :=
    List.foldl_preserves (P := fun s : Store => s.Consistent ∅ ∧ s.Indexed ∅)
      (fun t _ h => commit_consistent h.left h.right t) ⟨consistent_init, indexed_init⟩
  exact ⟨h.check_eq hi, fun id => hi id (Set.notMem_empty _),
    fun t ht => ⟨(h.settled_of_mem ht).nonempty, (h.settled_of_mem ht).row⟩⟩

example : ((init.commit ⟨.replace, [
    .upsertMessage { id := "m1", threadId := "t1", labelIds := ["INBOX", "UNREAD"] },
    .upsertMessage { id := "m2", threadId := "t2", labelIds := ["STARRED"] },
    .modifyMessageLabels "m1" [] ["INBOX"]]⟩).threadLabels.rows.map (·.labelId)) = [1, 3, 1, 4] := by
  decide

end Store
end Kaluta
