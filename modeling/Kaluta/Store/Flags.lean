import Kaluta.Lib.Execution
import Kaluta.Store.Fetched

namespace Kaluta

open SystemLabels

-- The labels that a message's row has a copy of in its flags.
def FLAG_LABELS : List LabelId :=
  [UNREAD, STARRED, DRAFT, SENT]

-- The row's flags are what the labels say.
structure MessageRow.Shows (row : MessageRow) (has : LabelId → Prop) : Prop where
  isRead     : row.isRead = true ↔ ¬has UNREAD
  isStarred  : row.isStarred = true ↔ has STARRED
  isDraft    : row.isDraft = true ↔ has DRAFT
  isSentByMe : row.isSentByMe = true ↔ has SENT

namespace MessageRow

variable {row : MessageRow} {has has' : LabelId → Prop}

theorem shows_withFlags (row : MessageRow) (labels : List LabelId) :
    (row.withFlags labels).Shows (· ∈ labels) := by
  constructor <;> simp [withFlags]

theorem Shows.congr (h : row.Shows has) (hl : ∀ l ∈ FLAG_LABELS, has' l ↔ has l) : row.Shows has' := by
  simp only [FLAG_LABELS, List.forall_mem_cons, List.not_mem_nil, false_implies, implies_true, and_true] at hl
  have ⟨unread, starred, draft, sent⟩ := hl
  constructor
  · rw [unread, h.isRead]
  · rw [starred, h.isStarred]
  · rw [draft, h.isDraft]
  · rw [sent, h.isSentByMe]

-- Flags that go with two sets of labels tell them apart nowhere.
theorem Shows.unique (h : row.Shows has) (h' : row.Shows has') (l : LabelId) (hl : l ∈ FLAG_LABELS) :
    has l ↔ has' l := by
  simp only [FLAG_LABELS, List.mem_cons, List.not_mem_nil, or_false] at hl
  obtain rfl | rfl | rfl | rfl := hl
  · exact not_iff_not.mp (h.isRead.symm.trans h'.isRead)
  · exact h.isStarred.symm.trans h'.isStarred
  · exact h.isDraft.symm.trans h'.isDraft
  · exact h.isSentByMe.symm.trans h'.isSentByMe

end MessageRow

-- Every stored message's flags are what its labels say.
def Store.Flagged (s : Store) : Prop :=
  ∀ row ∈ s.messages, row.Shows (s.hasLabel row.id)

namespace Store

variable {s s' : Store}

theorem flagged_init : init.Flagged := by
  intro row hr
  cases hr

theorem Flagged.drops (h : s.Flagged) (hd : s.Drops s') : s'.Flagged :=
  fun row hr =>
    have ⟨hr, same⟩ := hd row hr
    (h row hr).congr fun l _ => same l

theorem Flagged.sameMail (h : s.Flagged) (hs : s.SameMail s') : s'.Flagged := by
  intro row hr
  rw [hs.messages] at hr
  refine (h row hr).congr fun l _ => ?_
  simp only [hasLabel, hs.labels, hs.messageLabels]

theorem Flagged.indexMessage (h : s.Flagged) (message : Rowid) : (s.indexMessage message).Flagged := by
  simp only [Store.indexMessage]
  split <;> exact h

end Store

namespace MailWriter

variable {w w' : MailWriter} {id : MessageId} {m : IncomingMessage} {keep : List LabelId}

-- The labels that are dropped are gone from every message, and no other.
theorem hasLabel_deleteLabels {m : Rowid} {labels : List LabelRow} (wf : w.tx.WellFormed)
    (hn : (labels.map (·.id)).Nodup) (hl : ∀ l ∈ labels, l ∈ w.tx.labels) :
    (labels.foldl (fun w l => let w := w.markThreadsWithLabel l.id
      { w with tx := w.tx.deleteLabel l.id }) w).tx.hasLabel m g ↔
    w.tx.hasLabel m g ∧ ∀ l ∈ labels, l.gmailId ≠ g := by
  induction labels generalizing w
  case nil => simp
  case cons l ls ih =>
    rw [List.map_cons, List.nodup_cons] at hn
    have marked : (w.markThreadsWithLabel l.id).tx = w.tx := tx_markThreadsWithLabel
    have ⟨hl, hls⟩ := List.forall_mem_cons.mp hl
    rw [List.foldl_cons, ih, List.forall_mem_cons, ← and_assoc]
    · refine and_congr_left fun _ => ?_
      dsimp only
      rw [marked, wf.hasLabel_deleteLabel hl, ne_comm]
    · dsimp only
      rw [marked]
      exact wf.deleteLabel
    · exact hn.right
    · intro l' hl'
      refine Table.mem_delete.mpr ⟨marked ▸ hls l' hl', decide_eq_false fun hid => ?_⟩
      exact hn.left (hid ▸ List.mem_map_of_mem hl')

theorem hasLabel_retainLabels {m : Rowid} (wf : w.tx.WellFormed) :
    (w.retainLabels keep).tx.hasLabel m g ↔ w.tx.hasLabel m g ∧ g ∈ keep := by
  rw [retainLabels, hasLabel_deleteLabels wf]
  · refine and_congr_right fun hg => ?_
    obtain ⟨l, hl, rfl, hm⟩ := hg
    have real : l.kind ≠ .virtual := fun hv =>
      wf.archiveUncarried _ hm l hl rfl (wf.virtualArchive l hl hv)
    simp only [List.mem_filter, decide_eq_true_eq]
    constructor
    · exact fun h => by_contra fun hk => h l ⟨⟨hl, real⟩, hk⟩ rfl
    · rintro hk l' ⟨⟨hl', _⟩, hk'⟩ hg
      exact hk' (hg ▸ hk)
  · rw [List.filter_filter]
    exact (List.filter_sublist.map _).nodup w.tx.labels.nodup
  · intro l hl
    exact (List.mem_filter.mp (List.mem_filter.mp hl).left).left

theorem messages_retainLabels : (w.retainLabels keep).tx.messages = w.tx.messages := by
  refine List.foldl_preserves (P := fun w' : MailWriter => w'.tx.messages = w.tx.messages) ?_ rfl
  intro w' l _ h
  exact (congrArg Store.messages tx_markThreadsWithLabel).trans h

-- Dropping labels leaves the flags right exactly when no message carries one that has a flag.
theorem flagged_retainLabels_iff (wf : w.tx.WellFormed) (h : w.tx.Flagged) :
    (w.retainLabels keep).tx.Flagged ↔
    ∀ row ∈ w.tx.messages, ∀ l ∈ FLAG_LABELS, w.tx.hasLabel row.id l → l ∈ keep := by
  rw [Store.Flagged, messages_retainLabels]
  refine forall₂_congr fun row hr => ?_
  constructor
  · intro hs l hl hc
    exact (hasLabel_retainLabels wf).mp (((hs.unique (h row hr)) l hl).mpr hc) |>.right
  · intro hk
    refine (h row hr).congr fun l hl => ?_
    rw [hasLabel_retainLabels wf, and_iff_left_of_imp (hk l hl)]

theorem flagged_upsertLabels (wf : w.tx.WellFormed) (h : w.tx.Flagged) (labels : List Label) :
    (w.upsertLabels labels).tx.Flagged := by
  refine (List.foldl_preserves (P := fun s : Store => s.WellFormed ∧ s.Flagged) ?_ ⟨wf, h⟩).right
  intro s l _ ⟨wf, h⟩
  refine ⟨wf.upsertLabel l, fun row hr => ?_⟩
  have messages : (s.upsertLabel l).messages = s.messages := by
    rw [Store.upsertLabel]
    split <;> rfl
  exact (h row (messages ▸ hr)).congr fun g _ => wf.hasLabel_upsertLabel l

theorem flagged_modifyMessageLabels (wf : w.tx.WellFormed) (h : w.tx.Flagged)
    (hs : w.modifyMessageLabels id add remove = .ok (w', found)) : w'.tx.Flagged := by
  rw [modifyMessageLabels] at hs
  split at hs
  case h_1 => cases hs; exact h
  case h_2 old _ =>
    obtain ⟨tx, htx, hs⟩ := Except.bind_eq_ok.mp hs
    cases Except.pure_eq_ok.mp hs
    have hasLabel := fun m g => wf.hasLabel_replaceMessageLabels (m := m) (g := g) htx
    obtain ⟨_, _, he⟩ := Store.replaceMessageLabels_frame htx
    have messages : tx.messages = w.tx.messages := by rw [he]
    rw [tx_markThreadRowid]
    intro row hr
    simp only [Store.setFlags, Table.mem_update] at hr
    obtain ⟨hr, hne⟩ | ⟨row', _, he, rfl⟩ := hr
    · refine (h row (messages ▸ hr)).congr fun g _ => ?_
      exact (hasLabel row.id g).trans (by rw [if_neg (of_decide_eq_false hne)])
    · refine (row'.shows_withFlags _).congr fun g _ => ?_
      exact (hasLabel row'.id g).trans (by rw [if_pos (of_decide_eq_true he)])

theorem flagged_adoptLocalCopy (h : w.tx.Flagged) {localId sent : MessageId} :
    (w.adoptLocalCopy localId sent).tx.Flagged := by
  rw [adoptLocalCopy]
  split
  · exact h.drops drops_deleteMessage
  · split
    · exact h
    · rw [tx_markThreadRowid]
      intro row hr
      simp only [Store.renameMessage, Table.mem_update] at hr
      obtain ⟨hr, _⟩ | ⟨row', hr', _, rfl⟩ := hr
      · exact h row hr
      · obtain ⟨isRead, isStarred, isDraft, isSentByMe⟩ := h row' hr'
        exact ⟨isRead, isStarred, isDraft, isSentByMe⟩

theorem flagged_upsertMessage (sound : w.Sound ∅ ∅) (h : w.tx.Flagged)
    (hs : w.upsertMessage m = .ok w') : w'.tx.Flagged := by
  rw [upsertMessage] at hs
  cases he : w.ensureThread m.threadId
  case mk w₁ thread =>
    obtain ⟨h₁, ht⟩ := sound.ensureThread he
    have flagged₁ : w₁.tx.Flagged := by
      rw [ensureThread] at he
      split at he <;> cases he <;> exact h
    cases hst : w₁.storeMessage thread m (w₁.incomingLabels m)
    case mk w₂ message =>
      obtain ⟨h₂, _⟩ := h₁.storeMessage ht hst
      have rows := storeMessage_rows h₁.wf hst
      simp only [he, hst] at hs
      obtain ⟨_, hp, hs⟩ := Except.bind_eq_ok.mp hs
      obtain ⟨tx, hr, hs⟩ := Except.bind_eq_ok.mp hs
      obtain ⟨_, hb, hs⟩ := Except.bind_eq_ok.mp hs
      cases Sound.insertChildren_eq hp
      cases Sound.replaceBody_eq hb
      cases Except.pure_eq_ok.mp hs
      have hasLabel := fun u g => h₂.wf.hasLabel_replaceMessageLabels (m := u) (g := g) hr
      obtain ⟨_, _, htx⟩ := Store.replaceMessageLabels_frame hr
      have messages : tx.messages = w₂.tx.messages := by rw [htx]
      refine Store.Flagged.indexMessage (fun row hrow => ?_) message
      obtain ⟨hid, _, old, rfl⟩ | ⟨hid, _, hrow, same⟩ := rows row (messages ▸ hrow)
      · refine (old.shows_withFlags _).congr fun g _ => ?_
        rw [hasLabel, if_pos hid]
      · refine (flagged₁ row hrow).congr fun g _ => ?_
        rw [hasLabel, if_neg hid, same]

end MailWriter

-- An account's store and the write transaction that is open on it.
structure MailState where
  saved  : Store
  writer : MailWriter

inductive MailStep
  | begin (storedLabels : StoredLabels)
  | write (op : MailWrite)
  | finish

namespace MailState

def rollback (m : MailState) : MailState := { m with
  writer := { tx := m.saved }
}

def step (m : MailState) : MailStep → MailState
  | .begin storedLabels => { m with writer := { tx := m.saved, storedLabels } }
  | .write op => match m.writer.write op with
    | .ok writer => { m with writer }
    | .error _   => m.rollback
  | .finish => match m.writer.finish with
    | .ok (saved, _) => { saved, writer := { tx := saved } }
    | .error _       => m.rollback

-- The label refresh keeps the labels that messages carry and that have a flag.
def KeepsFlags (m : MailState) : MailStep → Prop
  | .write (.retainLabels keep) =>
    ∀ row ∈ m.writer.tx.messages.rows, ∀ l ∈ FLAG_LABELS, m.writer.tx.hasLabel row.id l → l ∈ keep
  | _ => True

instance : ∀ m a, Decidable (KeepsFlags m a)
  | m, .write (.retainLabels keep) => inferInstanceAs (Decidable (∀ row ∈ m.writer.tx.messages.rows,
      ∀ l ∈ FLAG_LABELS, m.writer.tx.hasLabel row.id l → l ∈ keep))
  | _, .write (.upsertLabels _)           => .isTrue trivial
  | _, .write (.upsertMessage _)          => .isTrue trivial
  | _, .write (.modifyMessageLabels ..)   => .isTrue trivial
  | _, .write (.deleteMessage _)          => .isTrue trivial
  | _, .write (.adoptLocalCopy ..)        => .isTrue trivial
  | _, .begin _                           => .isTrue trivial
  | _, .finish                            => .isTrue trivial

end MailState

def mailSystem : System MailState MailStep where
  Start m    := m = { saved := .init, writer := { tx := .init } }
  step  m a  := some (m.step a)

namespace MailState

variable {m m' : MailState} {a : MailStep}

-- Both stores keep their invariants and have the right flags.
structure Sound (m : MailState) : Prop where
  consistent : m.saved.Consistent ∅
  indexed    : m.saved.Indexed ∅
  flagged    : m.saved.Flagged
  writer     : m.writer.Sound ∅ ∅
  written    : m.writer.tx.Flagged

theorem sound_start {s : Store} (hc : s.Consistent ∅) (hi : s.Indexed ∅) (hf : s.Flagged)
    (storedLabels : StoredLabels) : Sound { saved := s, writer := { tx := s, storedLabels } } where
  consistent := hc
  indexed    := hi
  flagged    := hf
  writer     := ⟨hc.mono (Set.empty_subset _), hi⟩
  written    := hf

theorem Sound.rollback (h : m.Sound) : m.rollback.Sound :=
  sound_start h.consistent h.indexed h.flagged _

theorem Sound.write {w : MailWriter} (h : m.Sound) {op : MailWrite} (ok : m.KeepsFlags (.write op))
    (hs : m.writer.write op = .ok w) : w.tx.Flagged := by
  have wf := h.writer.wf
  cases op <;> simp only [MailWriter.write] at hs
  case upsertLabels labels => cases hs; exact MailWriter.flagged_upsertLabels wf h.written labels
  case retainLabels keep   => cases hs; exact (MailWriter.flagged_retainLabels_iff wf h.written).mpr ok
  case upsertMessage m     => exact MailWriter.flagged_upsertMessage h.writer h.written hs
  case deleteMessage id    => cases hs; exact h.written.drops MailWriter.drops_deleteMessage
  case adoptLocalCopy localId sent => cases hs; exact MailWriter.flagged_adoptLocalCopy h.written
  case modifyMessageLabels id add remove =>
    obtain ⟨⟨_, _⟩, hm, he⟩ := Except.map_eq_ok.mp hs
    cases he
    exact MailWriter.flagged_modifyMessageLabels wf h.written hm

theorem Sound.step (h : m.Sound) (ok : m.KeepsFlags a) : (m.step a).Sound := by
  cases a <;> simp only [MailState.step]
  case begin storedLabels => exact sound_start h.consistent h.indexed h.flagged storedLabels
  case write op =>
    split
    case h_1 w hw => exact { h with writer := h.writer.write hw, written := h.write ok hw }
    case h_2      => exact h.rollback
  case finish =>
    split
    case h_1 s changes hs =>
      have hc : m.writer.tx.Consistent {t | m.writer.isDirty t} := by simpa using h.writer.consistent
      have ⟨hc, same⟩ := MailWriter.finish_consistent hc hs
      refine sound_start hc ?_ (h.written.sameMail same) _
      simpa [Store.Indexed, same.messagesFts, same.messages] using h.writer.indexed
    case h_2 => exact h.rollback

-- As long as no label refresh drops a label that has a flag from the messages that carry it, the flags
-- of all messages are what their labels say.
theorem flagged_of_reachable (h : mailSystem.Reachable KeepsFlags m) :
    m.saved.Flagged ∧ m.writer.tx.Flagged := by
  have sound : m.Sound := by
    refine h.invariant ?_ ?_
    · rintro _ rfl
      exact sound_start Store.consistent_init Store.indexed_init Store.flagged_init _
    · intro m a m' hm ok hs
      cases hs
      exact hm.step ok
  exact ⟨sound.flagged, sound.written⟩

-- An unread message is stored, and then the labels are refreshed.
def refreshed (keep : List LabelId) : List MailStep := [
  .begin .replace,
  .write (.upsertMessage { id := "m1", threadId := "t1", labelIds := ["UNREAD", "STARRED"] }),
  .finish,
  .begin .replace,
  .write (.retainLabels keep),
  .finish
]

def new : MailState where
  saved  := .init
  writer := { tx := .init }

theorem flagged_of_refreshed : ∃ m, mailSystem.run KeepsFlags new (refreshed FLAG_LABELS) = some m ∧
    m.saved.Flagged ∧ m.writer.tx.Flagged := by
  have ⟨m, hs⟩ := Option.isSome_iff_exists.mp
    (by decide : (mailSystem.run KeepsFlags new (refreshed FLAG_LABELS)).isSome)
  exact ⟨m, hs, flagged_of_reachable (.run (.start rfl) hs)⟩

-- A refresh that drops a label leaves its flag behind.
theorem not_flagged_of_refreshed : ∃ m, mailSystem.run (fun _ _ => True) new (refreshed []) = some m ∧
    mailSystem.Reachable (fun _ _ => True) m ∧ ¬m.saved.Flagged := by
  have stale : ∃ row ∈ ((refreshed []).foldl step new).saved.messages.rows,
      row.isRead = false ∧ ¬((refreshed []).foldl step new).saved.hasLabel row.id UNREAD := by decide
  have run : mailSystem.run (fun _ _ => True) new (refreshed []) = some ((refreshed []).foldl step new) := rfl
  refine ⟨(refreshed []).foldl step new, run, .run (.start rfl) run, fun h => ?_⟩
  have ⟨row, hr, unread, gone⟩ := stale
  exact absurd ((h row hr).isRead.mpr gone) (by simp [unread])

end MailState
end Kaluta
