import Kaluta.Store.Outbox
import Kaluta.Store.Mailbox

namespace Kaluta

open SystemLabels

-- Actions kept per account.
def KEEP : Nat := 50

-- Messages per provider call of a bulk action.
def BATCH : Nat := 1000

def chunks (n : Nat) (l : List α) : List (List α) :=
  if n = 0 ∨ l = [] then [] else l.take n :: chunks n (l.drop n)
termination_by l.length
decreasing_by
  rename_i h
  have := List.length_pos_iff.mpr (not_or.mp h).right
  simp only [List.length_drop]
  omega

theorem flatten_chunks (hn : 0 < n) (l : List α) : (chunks n l).flatten = l := by
  fun_induction chunks n l
  case case1 l h =>
    obtain rfl | rfl := h
    · exact absurd hn (lt_irrefl 0)
    · rfl
  case case2 l h ih => rw [List.flatten_cons, ih, List.take_append_drop]

namespace MessageDiff

-- The change that reverses this one.
def inverse (d : MessageDiff) : MessageDiff where
  message := d.message
  added   := d.removed
  removed := d.added

def isEmpty (d : MessageDiff) : Bool :=
  d.added.isEmpty && d.removed.isEmpty

-- What one message's labels become: `add` it lacked, `remove` it had.
def diffFor (message : MessageId) (before add remove : List LabelId) : MessageDiff where
  message := message
  added   := add.filter (· ∉ before)
  removed := remove.filter (· ∈ before)

-- What is done to a message's labels.
def change (d : MessageDiff) : List LabelId × List LabelId :=
  (d.added, d.removed)

end MessageDiff

-- The changes among diffs, each once, in the order of a `BTreeMap`'s keys.
def changesOf (diffs : List MessageDiff) : List (List LabelId × List LabelId) :=
  ((diffs.filter (!·.isEmpty)).map (·.change)).dedup.insertionSort
    fun a b => a.1 < b.1 ∨ (a.1 = b.1 ∧ a.2 ≤ b.2)

-- Messages with the same change share a group.
def groupsOf (diffs : List MessageDiff) : List ((List LabelId × List LabelId) × List MessageId) :=
  (changesOf diffs).map fun c => (c, (diffs.filter (·.change = c)).map (·.message))

-- What is left of a change for the labels once the trash endpoints have done their part: Trash comes
-- and goes through them, and trashing also takes a message out of the Inbox.
def restOf (add remove : List LabelId) : List LabelId × List LabelId :=
  let remove := remove.filter (· ≠ TRASH)
  if TRASH ∈ add then (add.filter (· ≠ TRASH), remove.filter (· ≠ INBOX)) else (add, remove)

namespace Store

-- The ops of a group of messages with the same change.
def changeOps (s : Store) (messageIds : List MessageId) (add remove : List LabelId) : List OutboxOp :=
  let untrash := if TRASH ∈ remove then [.untrash messageIds] else []
  let trash :=
    if TRASH ∈ add then [.trash messageIds (messageIds.map fun m => (m, s.currentLabels m))] else []
  let (add, remove) := restOf add remove
  let labels := if add = [] ∧ remove = [] then [] else [.modifyLabels messageIds add remove]
  untrash ++ trash ++ labels

-- Provider ops for exact per-message diffs.
def providerOps (s : Store) (diffs : List MessageDiff) : List OutboxOp :=
  (groupsOf diffs).flatMap fun ((add, remove), messageIds) => s.changeOps messageIds add remove

end Store

-- Provider ops for per-message diffs as label changes only, of at most `BATCH` messages each.
def batchedOps (diffs : List MessageDiff) : List OutboxOp :=
  (groupsOf diffs).flatMap fun ((add, remove), messageIds) =>
    (chunks BATCH messageIds).map (.modifyLabels · add remove)

-- Records an action and forgets all but the last `KEEP`. Returns its id.
def Db.record (db : Db) (kind : String) (diffs : List MessageDiff) : Db × Rowid :=
  let id := db.undoActions.nextRowid
  ({ db with
    undoActions := (db.undoActions.insertRow ({ id := ·, kind, diffs }) (fun _ => rfl)).delete
      (·.id ≤ id - KEEP) }, id)

end Kaluta

namespace Kaluta

open SystemLabels

abbrev LabelWrite := MessageId × (Set LabelId → Set LabelId)

namespace Store

variable {s : Store} {m : MessageId} {labels : Set LabelId}

theorem mem_currentLabels (h : s.mailbox m = some labels) : l ∈ s.currentLabels m ↔ l ∈ labels := by
  obtain ⟨row, hr, rfl⟩ := Option.map_eq_some_iff.mp h
  simp only [currentLabels, hr]
  exact mem_messageLabelIds

theorem currentLabels_eq_nil (h : s.mailbox m = none) : s.currentLabels m = [] := by
  rw [currentLabels, mailbox_eq_none.mp h]

end Store

namespace MailWriter

variable {w w₁ w' : MailWriter} {ms ms' : List LabelWrite}

-- What a part of a transaction does to the labels of messages, in order.
structure Writes (w : MailWriter) (ms : List LabelWrite) (w' : MailWriter) : Prop where
  ready   : w'.Ready
  mailbox : w'.tx.mailbox = Cells.modifyAll w.tx.mailbox ms
  threads : w'.tx.threadOf = w.tx.threadOf

namespace Writes

theorem nil (h : w.Ready) : w.Writes [] w :=
  ⟨h, rfl, rfl⟩

theorem append (h : w.Writes ms w₁) (h' : w₁.Writes ms' w') : w.Writes (ms ++ ms') w' where
  ready   := h'.ready
  mailbox := by rw [h'.mailbox, h.mailbox, Cells.modifyAll_append]
  threads := h'.threads.trans h.threads

theorem stored (h : w.Writes ms w') (m : MessageId) : w'.tx.mailbox m = none ↔ w.tx.mailbox m = none := by
  rw [← Option.isNone_iff_eq_none, ← Option.isNone_iff_eq_none, h.mailbox, ← Option.not_isSome,
    ← Option.not_isSome, Cells.isSome_modifyAll]

end Writes

end MailWriter

def MessageDiff.write (d : MessageDiff) : LabelWrite :=
  (d.message, (Overwrite.edit d.added d.removed).apply)

namespace MailWriter

section Loop

variable {w w' : MailWriter} {α : Type u} {step : MailWriter → α → StoreResult MailWriter} {write : α → LabelWrite}
variable {as : List α}

-- A loop each step of which writes to one message.
theorem Ready.each (h : w.Ready)
    (one : ∀ {w w'} a, w.Ready → step w a = .ok w' → w.Writes [write a] w')
    (hs : as.foldlM step w = .ok w') : w.Writes (as.map write) w' := by
  induction as generalizing w
  case nil =>
    cases List.foldlM_nil_eq_ok.mp hs
    exact .nil h
  case cons a as ih =>
    have ⟨w₁, h₁, hs⟩ := List.foldlM_cons_eq_ok.mp hs
    have hw := one a h h₁
    exact hw.append (ih hw.ready hs)

-- Such a loop fails only for a step that may fail, and only on a stored message.
theorem Ready.each_ok {bad : α → Prop} (write : α → LabelWrite) (h : w.Ready)
    (one : ∀ {w w'} a, w.Ready → step w a = .ok w' → w.Writes [write a] w')
    (ok : ∀ {w : MailWriter} a, w.Ready →
      ((∃ w', step w a = .ok w') ↔ (bad a → w.tx.mailbox (write a).1 = none))) :
    (∃ w', as.foldlM step w = .ok w') ↔ ∀ a ∈ as, bad a → w.tx.mailbox (write a).1 = none := by
  induction as generalizing w
  case nil => exact ⟨nofun, fun _ => ⟨w, rfl⟩⟩
  case cons a as ih =>
    rw [List.forall_mem_cons, ← ok a h]
    simp only [List.foldlM_cons_eq_ok]
    constructor
    · rintro ⟨w', w₁, h₁, hs⟩
      have hw := one a h h₁
      refine ⟨⟨w₁, h₁⟩, fun a ha hb => (hw.stored _).mp ?_⟩
      exact (ih hw.ready).mp ⟨w', hs⟩ a ha hb
    · rintro ⟨⟨w₁, h₁⟩, has⟩
      have hw := one a h h₁
      have ⟨w', hs⟩ := (ih hw.ready).mpr fun a ha hb => (hw.stored _).mpr (has a ha hb)
      exact ⟨w', w₁, h₁, hs⟩

end Loop
namespace Ready

variable {w w' : MailWriter} {id : MessageId} {add remove : List LabelId} {diffs : List MessageDiff}
variable {previous : List (MessageId × List LabelId)}

section

variable (h : w.Ready)
include h

theorem modify (hs : w.modifyMessageLabels id add remove = .ok (w', found)) :
    w.Writes [(id, (Overwrite.edit add remove).apply)] w' :=
  have ⟨ready, mailbox, threads, _⟩ := h.modifyMessageLabels hs
  ⟨ready, mailbox, threads⟩

-- Putting recorded labels back and taking the current ones away writes the recorded ones.
theorem restore (hs : w.modifyMessageLabels id labels (w.tx.currentLabels id) = .ok (w', found)) :
    w.Writes [(id, (Overwrite.assign labels).apply)] w' := by
  have hw := h.modify hs
  refine ⟨hw.ready, hw.mailbox.trans ?_, hw.threads⟩
  funext m
  by_cases hm : m = id
  case neg => simp [Cells.modifyAll, Cells.modify_ne hm]
  case pos =>
    subst hm
    simp only [Cells.modifyAll, List.foldl_cons, List.foldl_nil, Cells.modify_self]
    refine Option.map_congr fun before hb => ?_
    ext l
    simp [Store.mem_currentLabels hb]

theorem modify_ok (diff : MessageDiff) :
    (∃ w', (w.modifyMessageLabels diff.message diff.added remove).map Prod.fst = .ok w') ↔
      (ARCHIVE_LABEL ∈ diff.added → w.tx.mailbox diff.message = none) := by
  rw [← h.modifyMessageLabels_ok remove]
  simp only [Except.map_eq_ok]
  exact ⟨fun ⟨_, r, hr, _⟩ => ⟨r, hr⟩, fun ⟨r, hr⟩ => ⟨_, r, hr, rfl⟩⟩

end

theorem modifyEach (h : w.Ready) (hs : w.modifyEach diffs = .ok w') :
    w.Writes (diffs.map (·.write)) w' :=
  h.each (fun _ h hs => have ⟨_, hm, he⟩ := Except.map_eq_ok.mp hs; he ▸ h.modify hm) hs

theorem modifyEach_ok (h : w.Ready) : (∃ w', w.modifyEach diffs = .ok w') ↔
    ∀ d ∈ diffs, ARCHIVE_LABEL ∈ d.added → w.tx.mailbox d.message = none :=
  h.each_ok MessageDiff.write
    (fun _ h hs => have ⟨_, hm, he⟩ := Except.map_eq_ok.mp hs; he ▸ h.modify hm)
    (fun d h => h.modify_ok d)

theorem restoreEach (h : w.Ready) (hs : w.restoreEach previous = .ok w') :
    w.Writes (previous.map fun p => (p.1, (Overwrite.assign p.2).apply)) w' :=
  h.each (fun _ h hs => have ⟨_, hm, he⟩ := Except.map_eq_ok.mp hs; he ▸ h.restore hm) hs

theorem restoreEach_ok (h : w.Ready) : (∃ w', w.restoreEach previous = .ok w') ↔
    ∀ p ∈ previous, ARCHIVE_LABEL ∈ p.2 → w.tx.mailbox p.1 = none :=
  h.each_ok (fun p : MessageId × List LabelId => (p.1, (Overwrite.assign p.2).apply))
    (fun _ h hs => have ⟨_, hm, he⟩ := Except.map_eq_ok.mp hs; he ▸ h.restore hm)
    (fun p h => h.modify_ok ⟨p.1, p.2, []⟩)

end Ready
end MailWriter
end Kaluta
