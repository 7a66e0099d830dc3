import Kaluta.Store.Undo
import Kaluta.Store.Rollback

namespace Kaluta

open SystemLabels

-- A change the user (or an agent) makes.
inductive LocalChange
  | labels (threadIds : List ThreadId) (add remove : List LabelId)
  | trash (threadIds : List ThreadId)
  -- Exactly these per-message changes: undoing or redoing a recorded action.
  | exact (diffs : List MessageDiff) (batched : Bool)
  -- Clean Up, on the messages that are in the chosen groups as the change runs.
  | cleanup (messages : List MessageId) (add remove : List LabelId)
  deriving DecidableEq, Repr

namespace LocalChange

def archive (threadIds : List ThreadId) : LocalChange :=
  .labels threadIds [] [INBOX]

def moveToInbox (threadIds : List ThreadId) : LocalChange :=
  .labels threadIds [INBOX] []

-- Mark as Junk: to Spam and out of the Inbox.
def markJunk (threadIds : List ThreadId) : LocalChange :=
  .labels threadIds [SPAM] [INBOX]

-- Not Junk: out of Spam and into the Inbox.
def notJunk (threadIds : List ThreadId) : LocalChange :=
  .labels threadIds [INBOX] [SPAM]

def setRead (threadIds : List ThreadId) (read : Bool) : LocalChange :=
  if read then .labels threadIds [] [UNREAD] else .labels threadIds [UNREAD] []

def setStarred (threadIds : List ThreadId) (starred : Bool) : LocalChange :=
  if starred then .labels threadIds [STARRED] [] else .labels threadIds [] [STARRED]

end LocalChange

-- `op` limited to `kept` messages, or `none` if none is left.
def OutboxOp.retainMessages (kept : List MessageId) : OutboxOp → Option OutboxOp
  | .modifyLabels ids add remove =>
    let ids := ids.filter (· ∈ kept)
    if ids = [] then none else some (.modifyLabels ids add remove)
  | .untrash ids =>
    let ids := ids.filter (· ∈ kept)
    if ids = [] then none else some (.untrash ids)
  | .trash ids previous =>
    let ids := ids.filter (· ∈ kept)
    if ids = [] then none else some (.trash ids (previous.filter (·.1 ∈ kept)))
  | op => some op

-- What a change has done to the store, and the ops that tell the provider.
structure Applied where
  ops     : List OutboxOp
  diffs   : List MessageDiff
  mail    : Store
  changes : ThreadChanges

namespace MailWriter

-- Applies diffs as recorded. A message gone since (deleted on the server) is skipped.
def applyExact (w : MailWriter) (diffs : List MessageDiff) : StoreResult (MailWriter × List MessageDiff) :=
  diffs.foldlM
    (fun (w, applied) d => do
      let (w, found) ← w.modifyMessageLabels d.message d.added d.removed
      return (w, if found then applied ++ [d] else applied))
    (w, [])

-- Clean Up on one message. Sent mail never goes to Spam.
def cleanupMessage (w : MailWriter) (message : MessageId) (add remove : List LabelId) :
    StoreResult (MailWriter × Option MessageDiff) :=
  let before := w.tx.currentLabels message
  let added := add.filter (· ∉ before)
  let removed := remove.filter fun l => l ∈ before && l ∉ add
  if (SPAM ∈ add ∧ SENT ∈ before) ∨ (added = [] ∧ removed = []) then
    .ok (w, none)
  else do
    let (w, _) ← w.modifyMessageLabels message added removed
    return (w, some ⟨message, added, removed⟩)

def applyCleanup (w : MailWriter) (messages : List MessageId) (add remove : List LabelId) :
    StoreResult (MailWriter × List MessageDiff) :=
  messages.foldlM
    (fun (w, diffs) m => do
      let (w, d) ← w.cleanupMessage m add remove
      return (w, diffs ++ d.toList))
    (w, [])

end MailWriter

namespace LocalChange

def applyTo (s : Store) : LocalChange → StoreResult Applied
  | labels threadIds add remove => do
    let affected := s.affectedMessages threadIds add remove
    let w ← { tx := s : MailWriter }.modifyEach (affected.map (⟨·.1, add, remove⟩))
    let (mail, changes) ← w.finish
    let ids := affected.map (·.1)
    return {
      ops   := if ids = [] then [] else [.modifyLabels ids add remove]
      diffs := affected.map fun (m, before) => .diffFor m before add remove
      mail, changes }
  | trash threadIds => do
    let affected := s.affectedMessages threadIds [TRASH] []
    let w ← { tx := s : MailWriter }.modifyEach (affected.map (⟨·.1, [TRASH], [INBOX]⟩))
    let (mail, changes) ← w.finish
    let ids := affected.map (·.1)
    return {
      ops   := if ids = [] then [] else [.trash ids affected]
      diffs := affected.map fun (m, before) => .diffFor m before [TRASH] [INBOX]
      mail, changes }
  | exact diffs batched => do
    let ops := if batched then batchedOps diffs else s.providerOps diffs
    let (w, applied) ← { tx := s : MailWriter }.applyExact diffs
    let (mail, changes) ← w.finish
    return {
      ops   := ops.filterMap (·.retainMessages (applied.map (·.message)))
      diffs := applied
      mail, changes }
  | cleanup messages add remove => do
    let (w, diffs) ← { tx := s : MailWriter }.applyCleanup messages add remove
    let (mail, changes) ← w.finish
    return { ops := batchedOps diffs, diffs, mail, changes }

end LocalChange

structure AppliedChange where
  changes  : ThreadChanges
  action   : Option Rowid -- The undoable action's id, when one was recorded.
  messages : Nat

-- Applies a change to the store, queueing it for the provider when `queue` is set, and recording what
-- it changed as an undoable action of kind `record` when given.
def Db.applyLocalChangeRecorded (db : Db) (change : LocalChange) (queue : Bool)
    (record : Option String) (now : Millis) : StoreResult (Db × AppliedChange) := do
  let { ops, diffs, mail, changes } ← change.applyTo db.mail
  let db := { db with mail }
  let db := if queue then ops.foldl (·.enqueue · now) db else db
  let messages := diffs.countP (!·.isEmpty)
  match record with
  | some kind =>
    if messages > 0 then
      let (db, action) := db.record kind diffs
      return (db, { changes, action := some action, messages })
    else
      return (db, { changes, action := none, messages })
  | none => return (db, { changes, action := none, messages })

end Kaluta

namespace Kaluta

open SystemLabels

namespace Store

variable {s : Store} {m : MessageId} {t : ThreadId} {threadIds : List ThreadId}
variable {add remove : List LabelId} {labels : Set LabelId}

theorem mem_messagesInThread (wf : s.WellFormed) : m ∈ s.messagesInThread t ↔ s.threadOf m = some t := by
  simp only [messagesInThread, List.mem_map, List.mem_insertionSort, List.mem_filter,
    decide_eq_true_eq, Table.mem_rows, threadOf, Option.bind_eq_some_iff, wf.message?_eq_some]
  constructor
  · rintro ⟨row, ⟨hr, ht⟩, hg⟩; exact ⟨row, ⟨hr, hg⟩, ht⟩
  · rintro ⟨row, ⟨hr, hg⟩, ht⟩; exact ⟨row, ⟨hr, ht⟩, hg⟩

end Store

-- A thread-level change is meant for the message.
def Selects (threadOf : MessageId → Option ThreadId) (threadIds : List ThreadId) (m : MessageId) : Prop :=
  ∃ t ∈ threadIds, threadOf m = some t

-- A label change would alter these labels.
def Alters (add remove : List LabelId) (labels : Set LabelId) : Prop :=
  (∃ l ∈ add, l ∉ labels) ∨ ∃ l ∈ remove, l ∈ labels

theorem apply_eq_self_of_not_alters {labels : Set LabelId} (h : ¬Alters add remove labels) :
    (Overwrite.edit add remove).apply labels = labels := by
  simp only [Alters, not_or, not_exists, not_and, not_not] at h
  exact Overwrite.apply_eq_self.mpr (Overwrite.agrees_edit.mpr ⟨h.left, fun l hl _ => h.right l hl⟩)

namespace Store

variable {s : Store} {m : MessageId} {threadIds : List ThreadId}
variable {add remove : List LabelId} {labels : Set LabelId}

theorem mem_affectedMessages (wf : s.WellFormed) {before : List LabelId} :
    (m, before) ∈ s.affectedMessages threadIds add remove ↔
    Selects s.threadOf threadIds m ∧ before = s.currentLabels m ∧ Alters add remove { l | l ∈ before } := by
  simp only [affectedMessages, List.mem_filter, List.mem_map, List.mem_flatMap,
    mem_messagesInThread wf, Bool.or_eq_true, List.any_eq_true, decide_eq_true_eq, Selects, Alters,
    Set.mem_ofPred_eq, Prod.mk.injEq]
  constructor
  · rintro ⟨⟨_, hs, rfl, rfl⟩, ha⟩; exact ⟨hs, rfl, ha⟩
  · rintro ⟨hs, rfl, ha⟩; exact ⟨⟨m, hs, rfl, rfl⟩, ha⟩

theorem affected_before (wf : s.WellFormed) (hp : p ∈ s.affectedMessages threadIds add remove) :
    p.2 = s.currentLabels p.1 :=
  ((mem_affectedMessages wf).mp hp).right.left

-- The messages a thread-level change queues its op for.
def affectedIds (s : Store) (threadIds : List ThreadId) (add remove : List LabelId) : List MessageId :=
  (s.affectedMessages threadIds add remove).map (·.1)

theorem mem_affectedIds (wf : s.WellFormed) (hm : s.mailbox m = some labels)
    (threadIds : List ThreadId) (add remove : List LabelId) :
    m ∈ s.affectedIds threadIds add remove ↔
    Selects s.threadOf threadIds m ∧ Alters add remove labels := by
  have current : { l | l ∈ s.currentLabels m } = labels := Set.ext fun _ => mem_currentLabels hm
  rw [affectedIds, List.mem_map, ← current]
  constructor
  · rintro ⟨⟨_, before⟩, hp, rfl⟩
    obtain ⟨hs, rfl, ha⟩ := (mem_affectedMessages wf).mp hp
    exact ⟨hs, ha⟩
  · rintro ⟨hs, ha⟩
    exact ⟨(m, s.currentLabels m), (mem_affectedMessages wf).mpr ⟨hs, rfl, ha⟩, rfl⟩

end Store

-- What diffs write to a message's labels.
def diffWrite (diffs : List MessageDiff) (m : MessageId) : Overwrite LabelId :=
  ((diffs.filter (·.message = m)).map fun d => .edit d.added d.removed).prod

theorem mailbox_diffs {b b' : MessageId → Option (Set LabelId)}
    (h : b' = Cells.modifyAll b (diffs.map (·.write))) (m : MessageId) :
    b' m = (b m).map (diffWrite diffs m).apply := by
  rw [h, Cells.modifyAll_apply]
  refine Option.map_congr fun labels _ => ?_
  rw [diffWrite, Overwrite.apply_prod, List.filter_map, List.foldl_map, List.foldl_map]
  rfl

theorem diffWrite_eq_none : diffWrite diffs m l = none ↔
    ∀ d ∈ diffs, d.message = m → l ∉ d.added ∧ l ∉ d.removed := by
  simp only [diffWrite, Overwrite.prod_eq_none, List.forall_mem_map, List.mem_filter,
    decide_eq_true_eq, Overwrite.edit_eq_none, and_imp]

-- What a change does to the mail and what it queues: label ops that have a say on all it touched.
structure Applied.Effect (s : Store) (a : Applied) (diffs : List MessageDiff) : Prop where
  ready    : a.mail.Ready
  threads  : a.mail.threadOf = s.threadOf
  mailbox  : a.mail.mailbox = Cells.modifyAll s.mailbox (diffs.map (·.write))
  labelOps : ∀ op ∈ a.ops, op.isLabelOp
  covered  : ∀ m l, s.mailbox m ≠ none → undoWrites a.ops m l = none → diffWrite diffs m l = none

namespace Applied.Effect

variable {s : Store} {a : Applied} {diffs : List MessageDiff} {m : MessageId} {labels : Set LabelId}

theorem after (h : a.Effect s diffs) (m : MessageId) :
    a.mail.mailbox m = (s.mailbox m).map (diffWrite diffs m).apply :=
  mailbox_diffs h.mailbox m

-- Undoing every op takes the change back from a message exactly when what is written is what was
-- there before.
theorem undone_iff (h : a.Effect s diffs) (hm : s.mailbox m = some labels) :
    (a.mail.mailbox m).map (undoWrites a.ops m).apply = s.mailbox m ↔
    (undoWrites a.ops m).Agrees labels := by
  rw [h.after, hm, Option.map_some, Option.map_some, Option.some_inj]
  exact Overwrite.apply_apply_eq_self fun l => h.covered m l (by rw [hm]; nofun)

end Applied.Effect

theorem MailWriter.Writes.finish {s mail : Store} {w : MailWriter} {ms : List LabelWrite}
    (h : ({ tx := s } : MailWriter).Writes ms w) (hs : w.finish = .ok (mail, changes)) :
    mail.Ready ∧ mail.threadOf = s.threadOf ∧ mail.mailbox = Cells.modifyAll s.mailbox ms := by
  obtain ⟨_, _, hf, ready, mailbox, threads⟩ := h.ready.finish
  cases hs.symm.trans hf
  exact ⟨ready, threads.trans h.threads, mailbox.trans h.mailbox⟩

theorem prod_assign {previous : List (MessageId × List LabelId)} {current : MessageId → List LabelId}
    (hp : ∀ p ∈ previous, p.2 = current p.1) (m : MessageId) :
    ((previous.filter (·.1 = m)).map (Overwrite.assign ·.2)).prod =
      if m ∈ previous.map (·.1) then .assign (current m) else 1 := by
  induction previous
  case nil => rfl
  case cons p ps ih =>
    have ⟨hp, hps⟩ := List.forall_mem_cons.mp hp
    have ih := ih hps
    by_cases hm : p.1 = m
    case pos =>
      subst hm
      rw [List.filter_cons_of_pos (by simp), List.map_cons, List.prod_cons, ih, hp]
      by_cases hps : p.1 ∈ ps.map (·.1) <;> simp [hps]
    case neg =>
      rw [List.filter_cons_of_neg (by simpa using hm), ih]
      exact if_congr (by simp [Ne.symm hm]) rfl rfl

namespace LocalChange

variable {s : Store} {a : Applied} {threadIds : List ThreadId} {add remove : List LabelId}
variable {m : MessageId} {l : LabelId}

theorem diffWrite_affected : diffWrite ((s.affectedMessages threadIds add remove).map
    (⟨·.1, add, remove⟩)) m l = none ↔ m ∈ s.affectedIds threadIds add remove → l ∉ add ∧ l ∉ remove := by
  rw [diffWrite_eq_none, Store.affectedIds, List.forall_mem_map]
  constructor
  · intro h hm
    obtain ⟨p, hp, rfl⟩ := List.mem_map.mp hm
    exact h p hp rfl
  · rintro h p hp rfl
    exact h (List.mem_map_of_mem hp)

theorem undoWrites_singleton {ids : List MessageId} {o : Overwrite LabelId} (op : OutboxOp)
    (h : op.undoWrite m = if m ∈ ids then o else 1) :
    undoWrites (if ids = [] then [] else [op]) m = if m ∈ ids then o else 1 := by
  by_cases hn : ids = []
  case pos => rw [if_pos hn, hn]; rfl
  case neg => rw [if_neg hn, undoWrites, List.map_singleton, List.prod_singleton, h]

theorem labels_effect (h : s.Ready) (hs : (labels threadIds add remove).applyTo s = .ok a) :
    a.Effect s ((s.affectedMessages threadIds add remove).map (⟨·.1, add, remove⟩)) ∧
    a.ops = (if s.affectedIds threadIds add remove = [] then []
      else [.modifyLabels (s.affectedIds threadIds add remove) add remove]) ∧
    ∀ m, undoWrites a.ops m = if m ∈ s.affectedIds threadIds add remove then .edit remove add else 1 := by
  have ⟨w, hw, hs⟩ := Except.bind_eq_ok.mp hs
  have ⟨⟨mail, changes⟩, hf, hs⟩ := Except.bind_eq_ok.mp hs
  cases Except.pure_eq_ok.mp hs
  have ⟨ready, threads, mailbox⟩ := ((MailWriter.ready_start h).modifyEach hw).finish hf
  have undo : ∀ m, undoWrites _ m =
      if m ∈ s.affectedIds threadIds add remove then .edit remove add else 1 :=
    fun m => undoWrites_singleton (.modifyLabels (s.affectedIds threadIds add remove) add remove) rfl
  refine ⟨⟨ready, threads, mailbox, ?_, ?_⟩, rfl, undo⟩
  · intro op hop
    rw [(List.mem_singleton.mp (List.mem_ite_nil_left.mp hop).right)]
    rfl
  · intro m l _ hn
    rw [diffWrite_affected]
    intro hm
    have hn := (congrFun (undo m) l).symm.trans hn
    rw [if_pos hm, Overwrite.edit_eq_none] at hn
    exact hn.symm

theorem trash_effect (h : s.Ready) (hs : (trash threadIds).applyTo s = .ok a) :
    a.Effect s ((s.affectedMessages threadIds [TRASH] []).map (⟨·.1, [TRASH], [INBOX]⟩)) ∧
    a.ops = (if s.affectedIds threadIds [TRASH] [] = [] then []
      else [.trash (s.affectedIds threadIds [TRASH] []) (s.affectedMessages threadIds [TRASH] [])]) ∧
    ∀ m, undoWrites a.ops m =
      if m ∈ s.affectedIds threadIds [TRASH] [] then .assign (s.currentLabels m) else 1 := by
  have ⟨w, hw, hs⟩ := Except.bind_eq_ok.mp hs
  have ⟨⟨mail, changes⟩, hf, hs⟩ := Except.bind_eq_ok.mp hs
  cases Except.pure_eq_ok.mp hs
  have ⟨ready, threads, mailbox⟩ := ((MailWriter.ready_start h).modifyEach hw).finish hf
  have undo : ∀ m, undoWrites _ m =
      if m ∈ s.affectedIds threadIds [TRASH] [] then .assign (s.currentLabels m) else 1 :=
    fun m => undoWrites_singleton (.trash (s.affectedIds threadIds [TRASH] [])
      (s.affectedMessages threadIds [TRASH] []))
      (prod_assign (fun _ => Store.affected_before h.consistent.wf) m)
  refine ⟨⟨ready, threads, mailbox, ?_, ?_⟩, rfl, undo⟩
  · intro op hop
    rw [(List.mem_singleton.mp (List.mem_ite_nil_left.mp hop).right)]
    rfl
  · intro m l _ hn
    rw [diffWrite_eq_none]
    rintro d hd rfl
    obtain ⟨p, hp, rfl⟩ := List.mem_map.mp hd
    have hid : p.1 ∈ s.affectedIds threadIds [TRASH] [] := List.mem_map_of_mem hp
    have hn := (congrFun (undo p.1) l).symm.trans hn
    rw [if_pos hid] at hn
    cases hn

end LocalChange

end Kaluta
