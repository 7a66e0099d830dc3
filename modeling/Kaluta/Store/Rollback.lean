import Kaluta.Store.Undo

namespace Kaluta

open SystemLabels

namespace OutboxOp

-- Ops that change the labels of messages.
def isLabelOp : OutboxOp → Bool
  | modifyLabels .. => true
  | trash ..        => true
  | untrash _       => true
  | _               => false

-- What undoing an op writes to a message's labels.
def undoWrite (m : MessageId) : OutboxOp → Overwrite LabelId
  | modifyLabels ids add remove => if m ∈ ids then .edit remove add else 1
  | trash _ previous            => ((previous.filter (·.1 = m)).map (.assign ·.2)).prod
  | untrash ids                 => if m ∈ ids then .edit [TRASH] [] else 1
  | _                           => 1

-- The virtual label cannot be put on a message, so an op that took it off cannot be undone.
def Undoable (stored : MessageId → Prop) : OutboxOp → Prop
  | modifyLabels ids _ remove => ARCHIVE_LABEL ∈ remove → ∀ m ∈ ids, ¬stored m
  | trash _ previous          => ∀ p ∈ previous, ARCHIVE_LABEL ∈ p.2 → ¬stored p.1
  | _                         => True

end OutboxOp

-- What undoing ops writes to a message's labels, one after another.
def undoWrites (ops : List OutboxOp) (m : MessageId) : Overwrite LabelId :=
  (ops.map (·.undoWrite m)).prod

namespace MailWriter.Ready

variable {w w' : MailWriter} {op : OutboxOp}

theorem undoOp (h : w.Ready) (hop : op.isLabelOp) (hs : w.undoOp op = .ok w') :
    w'.Ready ∧ w'.tx.threadOf = w.tx.threadOf ∧
    ∀ m, w'.tx.mailbox m = (w.tx.mailbox m).map (op.undoWrite m).apply := by
  cases op <;> simp only [OutboxOp.isLabelOp, Bool.false_eq_true] at hop
  case modifyLabels ids add remove =>
    have hw := h.modifyEach hs
    refine ⟨hw.ready, hw.threads, fun m => ?_⟩
    have ids_map : (ids.map (⟨·, remove, add⟩ : MessageId → MessageDiff)).map (·.write) =
        ids.map (·, (Overwrite.edit remove add).apply) := by
      simp [MessageDiff.write]
    rw [hw.mailbox, ids_map, Cells.modifyAll_map fun _ => Overwrite.apply_apply]
    by_cases hm : m ∈ ids <;> simp [OutboxOp.undoWrite, hm]
  case untrash ids =>
    have hw := h.modifyEach hs
    refine ⟨hw.ready, hw.threads, fun m => ?_⟩
    have ids_map : (ids.map (⟨·, [TRASH], []⟩ : MessageId → MessageDiff)).map (·.write) =
        ids.map (·, (Overwrite.edit [TRASH] []).apply) := by
      simp [MessageDiff.write]
    rw [hw.mailbox, ids_map, Cells.modifyAll_map fun _ => Overwrite.apply_apply]
    by_cases hm : m ∈ ids <;> simp [OutboxOp.undoWrite, hm]
  case trash ids previous =>
    have hw := h.restoreEach hs
    refine ⟨hw.ready, hw.threads, fun m => ?_⟩
    rw [hw.mailbox, Cells.modifyAll_apply]
    refine Option.map_congr fun labels _ => ?_
    simp only [OutboxOp.undoWrite, Overwrite.apply_prod, List.foldl_map, List.filter_map]
    rfl

theorem undoOp_ok (h : w.Ready) (hop : op.isLabelOp) :
    (∃ w', w.undoOp op = .ok w') ↔ op.Undoable fun m => w.tx.mailbox m ≠ none := by
  cases op <;> simp only [OutboxOp.isLabelOp, Bool.false_eq_true] at hop
  case modifyLabels ids add remove =>
    refine h.modifyEach_ok.trans ?_
    simp only [List.forall_mem_map, OutboxOp.Undoable, not_not]
    exact ⟨fun hm ha m hid => hm m hid ha, fun hm m hid ha => hm ha m hid⟩
  case untrash ids =>
    refine h.modifyEach_ok.trans ?_
    simp only [List.forall_mem_map, OutboxOp.Undoable, iff_true]
    exact fun m _ ha => absurd ha (by decide)
  case trash ids previous =>
    refine h.restoreEach_ok.trans ?_
    simp only [OutboxOp.Undoable, not_not]

end MailWriter.Ready

namespace Db

variable {db db' : Db} {id : Rowid} {row : OutboxRow} {error : String}

-- The ops of another database's outbox are still here.
def KeepsOps (db db' : Db) : Prop :=
  ∀ id op, (∃ row ∈ db.outbox, row.id = id ∧ row.op = op) → ∃ row ∈ db'.outbox, row.id = id ∧ row.op = op

theorem keepsOps_setOp (db : Db) {f : OutboxRow → OutboxRow} {hf : ∀ row, (f row).id = row.id}
    (hop : ∀ row, (f row).op = row.op) : db.KeepsOps (db.setOp id f hf) := by
  rintro _ _ ⟨row, hr, rfl, rfl⟩
  refine Table.exists_mem_update hf hr ?_
  split
  · exact ⟨hf row, hop row⟩
  · exact ⟨rfl, rfl⟩

-- Giving up on a label op writes what undoing it writes, to the messages that are stored.
theorem fail_label (h : db.mail.Ready) (hr : row ∈ db.outbox) (hop : row.op.isLabelOp)
    (hs : db.fail row.id error = .ok r) :
    r.1.mail.Ready ∧ db.KeepsOps r.1 ∧ r.1.mail.threadOf = db.mail.threadOf ∧
    ∀ m, r.1.mail.mailbox m = (db.mail.mailbox m).map (row.op.undoWrite m).apply := by
  rw [fail, Table.find?_key hr] at hs
  have ⟨w, hw, hs⟩ := Except.bind_eq_ok.mp hs
  have ⟨⟨mail, changes'⟩, hf, hs⟩ := Except.bind_eq_ok.mp hs
  have ⟨hready, hthreads, hmailbox⟩ := (MailWriter.ready_start h).undoOp hop hw
  obtain ⟨mail', _, hf', hm, mailbox, threads⟩ := hready.finish
  cases hf.symm.trans hf'
  cases Except.pure_eq_ok.mp hs
  refine ⟨hm, ?_, threads.trans hthreads, fun m => by rw [← hmailbox, ← mailbox]; rfl⟩
  cases hrop : row.op <;> simp only [hrop, OutboxOp.isLabelOp, Bool.false_eq_true] at hop <;>
    exact keepsOps_setOp db fun _ => rfl

theorem fail_label_ok (h : db.mail.Ready) (hr : row ∈ db.outbox) (hop : row.op.isLabelOp)
    (error : String) :
    (∃ r, db.fail row.id error = .ok r) ↔ row.op.Undoable fun m => db.mail.mailbox m ≠ none := by
  rw [← (MailWriter.ready_start h).undoOp_ok hop, fail, Table.find?_key hr]
  constructor
  · rintro ⟨_, hs⟩
    have ⟨w, hw, _⟩ := Except.bind_eq_ok.mp hs
    exact ⟨w, hw⟩
  · rintro ⟨w, hw⟩
    have ⟨hready, _⟩ := (MailWriter.ready_start h).undoOp hop hw
    obtain ⟨_, _, hf, _⟩ := hready.finish
    exact Except.bind_ok hw (Except.bind_ok hf ⟨_, rfl⟩)

-- Ops fail for good, one after another.
def failAll (db : Db) (ids : List Rowid) (error : Rowid → String) : StoreResult Db :=
  ids.foldlM (fun db id => (db.fail id (error id)).map Prod.fst) db

-- Failing ops writes what undoing each of them writes, in order.
theorem failAll_label {ops : List (Rowid × OutboxOp)} (error : Rowid → String) (h : db.mail.Ready)
    (hr : ∀ o ∈ ops, ∃ row ∈ db.outbox, row.id = o.1 ∧ row.op = o.2) (hop : ∀ o ∈ ops, o.2.isLabelOp) :
    ((∃ db', db.failAll (ops.map (·.1)) error = .ok db') ↔
      ∀ o ∈ ops, o.2.Undoable fun m => db.mail.mailbox m ≠ none) ∧
    ∀ db', db.failAll (ops.map (·.1)) error = .ok db' →
      ∀ m, db'.mail.mailbox m =
        (db.mail.mailbox m).map (undoWrites (ops.map (·.2)) m).apply := by
  induction ops generalizing db
  case nil =>
    refine ⟨⟨fun _ _ ho => absurd ho List.not_mem_nil, fun _ => ⟨db, rfl⟩⟩, fun db' hs m => ?_⟩
    cases List.foldlM_nil_eq_ok.mp hs
    simp [undoWrites]
  case cons o os ih =>
    have ⟨⟨row, hrow, hid, he⟩, hr⟩ := List.forall_mem_cons.mp hr
    have ⟨hop, hops⟩ := List.forall_mem_cons.mp hop
    rw [← he] at hop
    have step : ∀ {db₁ : Db}, (db.fail o.1 (error o.1)).map Prod.fst = .ok db₁ →
        db₁.mail.Ready ∧ (∀ o ∈ os, ∃ row ∈ db₁.outbox, row.id = o.1 ∧ row.op = o.2) ∧
        (∀ m, db₁.mail.mailbox m = (db.mail.mailbox m).map (o.2.undoWrite m).apply) ∧
        ∀ m, db₁.mail.mailbox m ≠ none ↔ db.mail.mailbox m ≠ none := by
      intro db₁ hs
      have ⟨r, hf, h₁⟩ := Except.map_eq_ok.mp hs
      subst h₁
      have ⟨ready, keeps, _, mailbox⟩ := fail_label h hrow hop (hid ▸ hf)
      exact ⟨ready, fun o ho => keeps _ _ (hr o ho), by rwa [← he],
        fun m => by rw [mailbox, ne_eq, Option.map_eq_none_iff]⟩
    have ok_iff : (∃ db₁, (db.fail o.1 (error o.1)).map Prod.fst = .ok db₁) ↔
        o.2.Undoable fun m => db.mail.mailbox m ≠ none := by
      rw [← he, ← fail_label_ok h hrow hop (error o.1), hid]
      simp only [Except.map_eq_ok]
      exact ⟨fun ⟨_, r, hr, _⟩ => ⟨r, hr⟩, fun ⟨r, hr⟩ => ⟨_, r, hr, rfl⟩⟩
    simp only [failAll, List.map_cons, List.foldlM_cons_eq_ok] at ih ⊢
    refine ⟨?_, ?_⟩
    · rw [List.forall_mem_cons, ← ok_iff]
      constructor
      · rintro ⟨db', db₁, h₁, hs⟩
        have ⟨ready, keeps, _, stored⟩ := step h₁
        have undoable := (ih ready keeps hops).left.mp ⟨db', hs⟩
        simp only [stored] at undoable
        exact ⟨⟨db₁, h₁⟩, undoable⟩
      · rintro ⟨⟨db₁, h₁⟩, undoable⟩
        have ⟨ready, keeps, _, stored⟩ := step h₁
        have ⟨db', hs⟩ := (ih ready keeps hops).left.mpr (by simpa only [stored] using undoable)
        exact ⟨db', db₁, h₁, hs⟩
    · rintro db' ⟨db₁, h₁, hs⟩ m
      have ⟨ready, keeps, mailbox, _⟩ := step h₁
      rw [(ih ready keeps hops).right db' hs m, mailbox, Option.map_map]
      refine Option.map_congr fun labels _ => ?_
      simp only [undoWrites, Function.comp_apply, Overwrite.apply_prod, List.map_cons, List.foldl_cons]

end Db
end Kaluta
