import Kaluta.Sync.Rollback

namespace Kaluta

open SystemLabels

-- An op's own part of the change that queued it. Trashing also takes messages out of the Inbox, unless
-- the change says otherwise.
def OutboxOp.diffs (inbox : MessageId → Bool) : OutboxOp → List MessageDiff
  | modifyLabels ids add remove => ids.map fun m => ⟨m, add, remove⟩
  | trash ids _                 => ids.map fun m => ⟨m, [TRASH], if inbox m then [INBOX] else []⟩
  | untrash ids                 => ids.map fun m => ⟨m, [], [TRASH]⟩
  | _                           => []

-- What ops write to a message's labels, one after another.
def opWrites (inbox : MessageId → Bool) (ops : List OutboxOp) (m : MessageId) : Overwrite LabelId :=
  (ops.map fun op => diffWrite (op.diffs inbox) m).prod

namespace Db

-- Makes an op's part of a change and queues the op.
def perform (db : Db) (op : OutboxOp) (inbox : MessageId → Bool) (now : Millis) : StoreResult Db := do
  let w ← { tx := db.mail : MailWriter }.modifyEach (op.diffs inbox)
  let (mail, _) ← w.finish
  return { db with mail }.enqueue op now

def HasOp (db : Db) (id : Rowid) (op : OutboxOp) : Prop :=
  ∃ row ∈ db.outbox, row.id = id ∧ row.op = op

end Db

variable {diffs : List MessageDiff} {m : MessageId} {inbox : MessageId → Bool}

theorem diffWrite_map {ids : List MessageId} {add remove : MessageId → List LabelId} :
    diffWrite (ids.map fun m => ⟨m, add m, remove m⟩) m =
      if m ∈ ids then .edit (add m) (remove m) else 1 := by
  rw [diffWrite, List.filter_map, List.map_map]
  induction ids
  case nil => rfl
  case cons id ids ih =>
    by_cases hm : id = m
    case pos =>
      subst hm
      rw [List.filter_cons_of_pos (by simp), List.map_cons, List.prod_cons, ih]
      by_cases hids : id ∈ ids <;> simp [hids]
    case neg =>
      rw [List.filter_cons_of_neg (by simpa using hm), ih]
      exact if_congr (by simp [Ne.symm hm]) rfl rfl

theorem diffWrite_affectedIds {s : Store} : diffWrite ((s.affectedMessages threadIds add remove).map
    (⟨·.1, add', remove'⟩)) m =
      if m ∈ s.affectedIds threadIds add remove then .edit add' remove' else 1 := by
  have part : (s.affectedMessages threadIds add remove).map (⟨·.1, add', remove'⟩ : _ → MessageDiff) =
      (s.affectedIds threadIds add remove).map fun m => ⟨m, add', remove'⟩ := by
    rw [Store.affectedIds, List.map_map]
    rfl
  rw [part, diffWrite_map]

theorem opWrites_flatMap {α : Type u} {as : List α} {f : α → List OutboxOp} :
    opWrites inbox (as.flatMap f) m = (as.map fun a => opWrites inbox (f a) m).prod := by
  rw [opWrites, List.map_flatMap, List.flatMap, List.prod_flatten, List.map_map]
  rfl

section Group

variable {ids : List MessageId} {add remove : List LabelId} {c : LabelChange} {m : MessageId}

theorem opWrites_chunks : opWrites inbox ((chunks BATCH ids).map (.modifyLabels · add remove)) m =
    if m ∈ ids then .edit add remove else 1 := by
  rw [opWrites, List.map_map, ← if_congr mem_chunks rfl rfl, ← Overwrite.prod_ite]
  exact congrArg _ (List.map_congr_left fun _ _ => diffWrite_map)

-- What a change takes out when trashing takes a message out of the Inbox as well.
def besides (inbox : Bool) (add remove : List LabelId) : List LabelId :=
  if TRASH ∈ add ∧ inbox = true then INBOX :: remove else remove

-- Trash comes and goes through its own ops, and what they take out of the Inbox is not taken out twice.
theorem edit_restOf {inbox : Bool} (hi : INBOX ∈ remove → inbox = true) :
    (if TRASH ∈ remove then .edit [] [TRASH] else 1) *
      (if TRASH ∈ add then .edit [TRASH] (if inbox then [INBOX] else []) else 1) *
      .edit (restOf add remove).1 (restOf add remove).2 = Overwrite.edit add (besides inbox add remove) := by
  funext l
  have hne : INBOX ≠ TRASH := by decide
  by_cases ht : l = TRASH
  · cases inbox <;> by_cases ha : TRASH ∈ add <;> by_cases hr : TRASH ∈ remove <;>
      simp [Overwrite.mul_apply, Overwrite.edit, restOf, besides, ht, ha, hr]
  · cases inbox <;> by_cases ha : TRASH ∈ add <;> by_cases hr : TRASH ∈ remove <;> by_cases hl : l = INBOX <;>
      by_cases hla : l ∈ add <;> by_cases hlr : l ∈ remove <;>
      simp_all [Overwrite.mul_apply, Overwrite.edit, restOf, besides]

theorem opWrites_changeOps_besides {s : Store} (hi : m ∈ ids → INBOX ∈ remove → inbox m = true) :
    opWrites inbox (s.changeOps ids add remove) m =
      if m ∈ ids then .edit add (besides (inbox m) add remove) else 1 := by
  have single : ∀ (p : Prop) [Decidable p] (op : OutboxOp) (o : Overwrite LabelId),
      diffWrite (op.diffs inbox) m = (if m ∈ ids then o else 1) →
      opWrites inbox (if p then [op] else []) m = if m ∈ ids then (if p then o else 1) else 1 := by
    intro p _ op o ho
    by_cases hp : p <;> simp [opWrites, hp, ho]
  have labels : ∀ add remove : List LabelId, opWrites inbox
      (if add = [] ∧ remove = [] then [] else [.modifyLabels ids add remove]) m =
      if m ∈ ids then .edit add remove else 1 := by
    intro add remove
    by_cases hn : add = [] ∧ remove = []
    · simp [hn.left, hn.right, opWrites]
    · simp [hn, opWrites, OutboxOp.diffs, diffWrite_map]
  have append : ∀ ops ops' : List OutboxOp,
      opWrites inbox (ops ++ ops') m = opWrites inbox ops m * opWrites inbox ops' m := by
    simp [opWrites]
  rw [Store.changeOps, append, append, labels, single _ (.untrash ids) _ diffWrite_map,
    single _ (.trash ids _) _ diffWrite_map]
  by_cases hm : m ∈ ids
  · simp only [hm, if_true, ← edit_restOf (hi hm)]
  · simp only [hm, if_false, mul_one]

end Group

-- No message is named with two different changes.
def PerMessage (diffs : List MessageDiff) : Prop :=
  ∀ d ∈ diffs, ∀ d' ∈ diffs, d'.message = d.message → d' = d

theorem perMessage_of_nodup (once : (diffs.map (·.message)).Nodup) : PerMessage diffs :=
  fun _ hd _ hd' hm => List.inj_on_of_nodup_map once hd' hd hm

section PerMessage

variable (per : PerMessage diffs)
include per

theorem changes_iff (hd : d ∈ diffs) : Changes diffs d.message c ↔ c = d.change := by
  constructor
  · rintro ⟨d', hd', hm, rfl⟩
    rw [per d hd d' hd' hm]
  · rintro rfl
    exact ⟨d, hd, rfl, rfl⟩

end PerMessage

end Kaluta
