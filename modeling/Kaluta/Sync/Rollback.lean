import Kaluta.Store.Reachable
import Kaluta.Sync.Changed

namespace Kaluta

open SystemLabels

namespace Db

variable {db db₁ : Db} {change : LocalChange} {record : Option String} {now : Millis}
variable {ops : List OutboxOp}

-- The ops that have come into the outbox, oldest first.
def queuedSince (db db₁ : Db) : List Rowid :=
  (db₁.outbox.rows.filter fun row => (db.outbox.find? row.id).isNone).map (·.id)

theorem enqueueAll_rows (db : Db) (ops : List OutboxOp) (now : Millis) : ∃ new, (ops.foldl (·.enqueue · now) db).outbox.rows = db.outbox.rows ++ new ∧
    new.map (·.op) = ops := by
  induction ops generalizing db
  case nil => exact ⟨[], by simp⟩
  case cons op ops ih =>
    have ⟨new, hrows, hops⟩ := ih (db.enqueue op now)
    refine ⟨{ id := db.outbox.nextRowid, op, createdAt := now } :: new, ?_, by rw [List.map_cons, hops]⟩
    rw [List.foldl_cons, hrows]
    exact (List.append_cons ..).symm

-- What has come in are the ops that were queued.
theorem queuedSince_enqueueAll (h : db₁.outbox = (ops.foldl (·.enqueue · now) db).outbox) :
    ∃ queued : List (Rowid × OutboxOp), db.queuedSince db₁ = queued.map (·.1) ∧
      queued.map (·.2) = ops ∧ ∀ o ∈ queued, ∃ row ∈ db₁.outbox, row.id = o.1 ∧ row.op = o.2 := by
  obtain ⟨new, hrows, hops⟩ := enqueueAll_rows db ops now
  rw [← h] at hrows
  refine ⟨new.map fun row => (row.id, row.op), ?_, by rw [List.map_map]; exact hops, ?_⟩
  · have fresh : ∀ row ∈ new, db.outbox.find? row.id = none := by
      intro row hr
      refine Table.find?_eq_none_iff.mpr fun old hold he => ?_
      have hn := db₁.outbox.nodup
      rw [hrows, List.map_append, List.nodup_append] at hn
      exact hn.right.right _ (List.mem_map_of_mem hold) _ (List.mem_map_of_mem hr) he
    have old : db.outbox.rows.filter (fun row => (db.outbox.find? row.id).isNone) = [] := by
      refine List.filter_eq_nil_iff.mpr fun row hr => ?_
      rw [Table.find?_key (t := db.outbox) hr]
      simp
    have come : new.filter (fun row => (db.outbox.find? row.id).isNone) = new :=
      List.filter_eq_self.mpr fun row hr => by rw [fresh row hr]; rfl
    rw [queuedSince, hrows, List.filter_append, old, come, List.nil_append, List.map_map]
    rfl
  · rw [List.forall_mem_map]
    exact fun row hr => ⟨row, by rw [← Table.mem_rows, hrows]; exact List.mem_append_right _ hr, rfl, rfl⟩

-- A change that is applied has written its mail and queued its ops.
theorem applyLocalChangeRecorded_eq
    (hs : db.applyLocalChangeRecorded change true record now = .ok (db₁, applied)) :
    ∃ a, change.applyTo db.mail = .ok a ∧ db₁.mail = a.mail ∧
      db₁.outbox = (a.ops.foldl (·.enqueue · now) db).outbox := by
  have ⟨a, ha, hs⟩ := Except.bind_eq_ok.mp hs
  have queued : ∀ (ops : List OutboxOp) (db : Db) (mail : Store),
      ops.foldl (·.enqueue · now) { db with mail } =
        { ops.foldl (·.enqueue · now) db with mail } := by
    intro ops
    induction ops
    case nil            => exact fun _ _ => rfl
    case cons op ops ih => exact fun db mail => ih (db.enqueue op now) mail
  refine ⟨a, ha, ?_⟩
  simp only [if_true] at hs
  rw [queued] at hs
  split at hs
  · split at hs <;> cases Except.pure_eq_ok.mp hs <;> exact ⟨rfl, rfl⟩
  · cases Except.pure_eq_ok.mp hs
    exact ⟨rfl, rfl⟩

end Db

-- A change whose ops, when they all fail, leave no trace: what undoing them writes is what was there.
--  * A label change must find each message it alters with all it removes and nothing else of what it
--    adds, since its one op names the same labels for all of them.
--  * Trash records the labels, and Clean Up has an op for each kind of difference it makes.
--  * Exact diffs must take and give just what the messages have and lack, each change as its op undoes
--    it.
def LocalChange.RollsBack (s : Store) : LocalChange → Prop
  | labels threadIds add remove => ∀ m before, s.mailbox m = some before →
      Selects s.threadOf threadIds m → Alters add remove before →
        (∀ l ∈ remove, l ∈ before) ∧ ∀ l ∈ add, l ∉ remove → l ∉ before
  | trash _ => True
  | exact diffs batched => ∀ m before, s.mailbox m = some before →
      (∀ d ∈ diffs, d.message = m → ARCHIVE_LABEL ∉ d.removed) ∧
      (undoDiffs batched (s.currentLabels m) diffs m).Agrees before
  | cleanup .. => True

namespace LocalChange

variable {s : Store} {a : Applied} {change : LocalChange}

theorem applyTo_effect (h : s.Ready) (hs : change.applyTo s = .ok a) : ∃ diffs, a.Effect s diffs := by
  cases change
  case labels            => exact ⟨_, (labels_effect h hs).left⟩
  case trash             => exact ⟨_, (trash_effect h hs).left⟩
  case exact diffs batch => exact ⟨_, (exact_effect h hs).left⟩
  case cleanup           => exact ⟨_, (cleanup_effect h hs).left⟩

theorem rollsBack_labels (h : s.Ready) (hs : (labels threadIds add remove).applyTo s = .ok a) :
    ((∀ op ∈ a.ops, op.Undoable fun m => s.mailbox m ≠ none) ∧
      ∀ m before, s.mailbox m = some before → (undoWrites a.ops m).Agrees before) ↔
    (labels threadIds add remove).RollsBack s := by
  have ⟨_, hops, undo⟩ := labels_effect h hs
  have affected : ∀ m before, s.mailbox m = some before →
      (m ∈ s.affectedIds threadIds add remove ↔ Selects s.threadOf threadIds m ∧ Alters add remove before) :=
    fun m before hm => Store.mem_affectedIds h.consistent.wf hm threadIds add remove
  constructor
  · rintro ⟨_, agrees⟩ m before hm hsel halt
    have := agrees m before hm
    rw [undo, if_pos ((affected m before hm).mpr ⟨hsel, halt⟩), Overwrite.agrees_edit] at this
    exact this
  · intro hr
    refine ⟨fun op hop => ?_, fun m before hm => ?_⟩
    · rw [hops, List.mem_ite_nil_left, List.mem_singleton] at hop
      rw [hop.right]
      intro ha m hid hst
      have ⟨before, hm⟩ := Option.ne_none_iff_exists'.mp hst
      have ⟨hsel, halt⟩ := (affected m before hm).mp hid
      exact h.not_mem_archive hm ((hr m before hm hsel halt).left _ ha)
    · rw [undo]
      split
      case isTrue hid =>
        have ⟨hsel, halt⟩ := (affected m before hm).mp hid
        exact Overwrite.agrees_edit.mpr (hr m before hm hsel halt)
      case isFalse => exact Overwrite.agrees_one

theorem rollsBack_trash (h : s.Ready) (hs : (trash threadIds).applyTo s = .ok a) :
    (∀ op ∈ a.ops, op.Undoable fun m => s.mailbox m ≠ none) ∧
    ∀ m before, s.mailbox m = some before → (undoWrites a.ops m).Agrees before := by
  have ⟨_, hops, undo⟩ := trash_effect h hs
  refine ⟨fun op hop => ?_, fun m before hm => ?_⟩
  · rw [hops, List.mem_ite_nil_left, List.mem_singleton] at hop
    rw [hop.right]
    intro p hp ha hst
    have ⟨before, hm⟩ := Option.ne_none_iff_exists'.mp hst
    rw [Store.affected_before h.consistent.wf hp, Store.mem_currentLabels hm] at ha
    exact h.not_mem_archive hm ha
  · rw [undo]
    split
    · exact Overwrite.agrees_assign.mpr fun l => Store.mem_currentLabels hm
    · exact Overwrite.agrees_one

theorem rollsBack_exact (h : s.Ready) (hs : (LocalChange.exact diffs batched).applyTo s = .ok a) :
    ((∀ op ∈ a.ops, op.Undoable fun m => s.mailbox m ≠ none) ∧
      ∀ m before, s.mailbox m = some before → (undoWrites a.ops m).Agrees before) ↔
    (LocalChange.exact diffs batched).RollsBack s := by
  have ⟨_, undo, undoable⟩ := exact_effect h hs
  have undo : ∀ m before, s.mailbox m = some before →
      undoWrites a.ops m = undoDiffs batched (s.currentLabels m) diffs m :=
    fun m before hm => undo m (by rw [hm]; nofun)
  rw [undoable]
  constructor
  · rintro ⟨archive, agrees⟩ m before hm
    refine ⟨fun d hd hdm ha => archive d hd ha ?_, undo m before hm ▸ agrees m before hm⟩
    rw [hdm, hm]
    nofun
  · intro hr
    refine ⟨fun d hd ha hst => ?_, fun m before hm => undo m before hm ▸ (hr m before hm).right⟩
    have ⟨before, hm⟩ := Option.ne_none_iff_exists'.mp hst
    exact (hr d.message before hm).left d hd rfl ha

theorem rollsBack_applyTo (h : s.Ready) (hs : change.applyTo s = .ok a) :
    ((∀ op ∈ a.ops, op.Undoable fun m => s.mailbox m ≠ none) ∧
      ∀ m before, s.mailbox m = some before → (undoWrites a.ops m).Agrees before) ↔
    change.RollsBack s := by
  cases change
  case labels            => exact rollsBack_labels h hs
  case trash             => exact iff_of_true (rollsBack_trash h hs) trivial
  case exact diffs batch => exact rollsBack_exact h hs
  case cleanup =>
    have ⟨_, agrees, undoable⟩ := cleanup_effect h hs
    exact iff_of_true ⟨undoable, fun m before hm => (agrees m before hm).right⟩ trivial

end LocalChange

namespace Db

variable {db db₁ : Db} {change : LocalChange} {record : Option String} {now : Millis}

-- When every op that a local change queued fails for good, all labels are what they were before it
-- exactly for the changes that roll back.
theorem failAll_restores_iff (h : db.mail.Ready)
    (hs : db.applyLocalChangeRecorded change true record now = .ok (db₁, applied))
    (error : Rowid → String) :
    (∃ db₂, db₁.failAll (db.queuedSince db₁) error = .ok db₂ ∧ db₂.mail.mailbox = db.mail.mailbox) ↔
    change.RollsBack db.mail := by
  have ⟨a, ha, hmail, houtbox⟩ := applyLocalChangeRecorded_eq hs
  have ⟨diffs, effect⟩ := change.applyTo_effect h ha
  obtain ⟨queued, hids, hops, hrows⟩ := queuedSince_enqueueAll houtbox
  have stored : ∀ m, db₁.mail.mailbox m ≠ none ↔ db.mail.mailbox m ≠ none := by
    intro m
    rw [hmail, effect.after, ne_eq, Option.map_eq_none_iff]
  have label : ∀ o ∈ queued, o.2.isLabelOp :=
    fun o ho => effect.labelOps o.2 (hops ▸ List.mem_map_of_mem ho)
  have ⟨ok_iff, after⟩ := failAll_label error (hmail ▸ effect.ready) hrows label
  have undoable : (∀ o ∈ queued, o.2.Undoable fun m => db₁.mail.mailbox m ≠ none) ↔
      ∀ op ∈ a.ops, op.Undoable fun m => db.mail.mailbox m ≠ none := by
    simp only [stored, ← hops, List.forall_mem_map]
  rw [← change.rollsBack_applyTo h ha, ← undoable, ← ok_iff, hids]
  have restored : ∀ db₂, db₁.failAll (queued.map (·.1)) error = .ok db₂ →
      (db₂.mail.mailbox = db.mail.mailbox ↔
        ∀ m before, db.mail.mailbox m = some before → (undoWrites a.ops m).Agrees before) := by
    intro db₂ hf
    have hm : ∀ m, db₂.mail.mailbox m = (a.mail.mailbox m).map (undoWrites a.ops m).apply := by
      rw [← hmail, ← hops]
      exact after db₂ hf
    constructor
    · intro he m before hb
      exact (effect.undone_iff hb).mp ((hm m).symm.trans (congrFun he m))
    · intro hu
      funext m
      cases hb : db.mail.mailbox m
      case none        => rw [hm, effect.after, hb]; rfl
      case some before => rw [hm, (effect.undone_iff hb).mpr (hu m before hb), hb]
  exact ⟨fun ⟨db₂, hf, he⟩ => ⟨⟨db₂, hf⟩, (restored db₂ hf).mp he⟩,
    fun ⟨⟨db₂, hf⟩, hu⟩ => ⟨db₂, hf, (restored db₂ hf).mpr hu⟩⟩

-- A thread that is starred and in the Archive.
def archivedThread : Transaction where
  storedLabels := .replace
  writes       := [.upsertMessage { id := "m1", threadId := "t1", labelIds := ["STARRED"] }]

def archived : Db where
  mail := Store.init.commit archivedThread

theorem archived_ready : archived.mail.Ready :=
  have provided : archivedThread.Provided := by simp [Transaction.Provided, archivedThread]
  Store.ready_init.commit provided

theorem failAll_restores_markJunk : ∃ db₁ applied,
    archived.applyLocalChangeRecorded (.markJunk ["t1"]) true none 0 = .ok (db₁, applied) ∧
    ((∃ db₂, db₁.failAll (archived.queuedSince db₁) (fun _ => "") = .ok db₂ ∧
      db₂.mail.mailbox = archived.mail.mailbox) ↔
      (LocalChange.markJunk ["t1"]).RollsBack archived.mail) :=
  have ⟨(db₁, applied), hs⟩ := Except.exists_ok (by decide)
  ⟨db₁, applied, hs, failAll_restores_iff archived_ready hs _⟩

-- An archived thread that was marked as junk comes back to the Inbox.
theorem markJunk_moves_to_inbox : ∃ db₁ applied,
    archived.applyLocalChangeRecorded (.markJunk ["t1"]) true none 0 = .ok (db₁, applied) ∧
    ¬∃ db₂, db₁.failAll (archived.queuedSince db₁) (fun _ => "") = .ok db₂ ∧
      db₂.mail.mailbox = archived.mail.mailbox := by
  have run : (do
      let (db₁, _) ← archived.applyLocalChangeRecorded (.markJunk ["t1"]) true none 0
      let db₂ ← db₁.failAll (archived.queuedSince db₁) fun _ => ""
      return decide (INBOX ∈ db₂.mail.currentLabels "m1")) = Except.ok true := by decide
  have ⟨⟨db₁, applied⟩, h₁, run⟩ := Except.bind_eq_ok.mp run
  have ⟨db₂, h₂, run⟩ := Except.bind_eq_ok.mp run
  refine ⟨db₁, applied, h₁, fun ⟨db₂', hf, he⟩ => ?_⟩
  cases h₂.symm.trans hf
  have stored : archived.mail.mailbox "m1" ≠ none := mt Store.mailbox_eq_none.mp (by decide)
  have ⟨labels, hm⟩ := Option.ne_none_iff_exists'.mp stored
  have inbox := (Store.mem_currentLabels (he ▸ hm)).mp (of_decide_eq_true (Except.pure_eq_ok.mp run))
  exact absurd ((Store.mem_currentLabels hm).mpr inbox) (by decide)

end Db
end Kaluta
