import Kaluta.Sync.Performed

namespace Kaluta

open SystemLabels

-- What may come after an op was queued: local changes, other ops of the op's own change, and ops that
-- reach the provider.
inductive Later
  | change (change : LocalChange) (record : Option String) (now : Millis)
  | perform (op : OutboxOp) (inbox : MessageId → Bool) (now : Millis)
  | complete (id : Rowid)

namespace Db

def later (db : Db) : Later → StoreResult Db
  | .change change record now => (db.applyLocalChangeRecorded change true record now).map Prod.fst
  | .perform op inbox now     => db.perform op inbox now
  | .complete id              => .ok (db.complete id)

end Db

open Classical in
-- What a change makes of a message's labels, given the threads that the messages are in.
noncomputable def LocalChange.onLabels (threadOf : MessageId → Option ThreadId) (m : MessageId)
    (labels : Set LabelId) : LocalChange → Set LabelId
  | .labels threadIds add remove =>
    if Selects threadOf threadIds m then (Overwrite.edit add remove).apply labels else labels
  | .trash threadIds =>
    if Selects threadOf threadIds m ∧ TRASH ∉ labels then
      (Overwrite.edit [TRASH] [INBOX]).apply labels
    else
      labels
  | .exact diffs _ => (diffWrite diffs m).apply labels
  | .cleanup messages add remove => if m ∈ messages then cleaned add remove labels else labels

noncomputable def Later.onLabels (threadOf : MessageId → Option ThreadId) (m : MessageId)
    (labels : Set LabelId) : Later → Set LabelId
  | .change c _ _        => c.onLabels threadOf m labels
  | .perform op inbox _  => (diffWrite (op.diffs inbox) m).apply labels
  | .complete _          => labels

-- What later steps make of a message's labels, one after another.
noncomputable def laterLabels (threadOf : MessageId → Option ThreadId) (later : List Later) (m : MessageId)
    (labels : Set LabelId) : Set LabelId :=
  later.foldl (fun labels step => step.onLabels threadOf m labels) labels

namespace LocalChange

variable {s : Store} {a : Applied} {change : LocalChange} {m : MessageId}

theorem applyTo_onLabels (h : s.Ready) (hs : change.applyTo s = .ok a) (m : MessageId) :
    a.mail.mailbox m = (s.mailbox m).map (change.onLabels s.threadOf m ·) := by
  cases change
  case labels threadIds add remove =>
    obtain ⟨effect, _⟩ := labels_effect h hs
    rw [effect.after, diffWrite_affectedIds]
    refine Option.map_congr fun before hm => ?_
    have affected := Store.mem_affectedIds h.consistent.wf hm threadIds add remove
    by_cases hsel : Selects s.threadOf threadIds m
    case neg => rw [if_neg fun hid => hsel (affected.mp hid).left, onLabels, if_neg hsel]; simp
    case pos =>
      rw [onLabels, if_pos hsel]
      by_cases halt : Alters add remove before
      case pos => rw [if_pos (affected.mpr ⟨hsel, halt⟩)]
      case neg =>
        rw [if_neg fun hid => halt (affected.mp hid).right, apply_eq_self_of_not_alters halt]
        simp
  case trash threadIds =>
    obtain ⟨effect, _⟩ := trash_effect h hs
    rw [effect.after, diffWrite_affectedIds]
    refine Option.map_congr fun before hm => ?_
    have affected : m ∈ s.affectedIds threadIds [TRASH] [] ↔ Selects s.threadOf threadIds m ∧ TRASH ∉ before := by
      simpa [Alters] using Store.mem_affectedIds h.consistent.wf hm threadIds [TRASH] []
    by_cases hid : m ∈ s.affectedIds threadIds [TRASH] []
    case pos => rw [if_pos hid, onLabels, if_pos (affected.mp hid)]
    case neg => rw [if_neg hid, onLabels, if_neg (mt affected.mpr hid)]; simp
  case exact diffs batched =>
    obtain ⟨effect, _⟩ := exact_effect h hs
    exact effect.after m
  case cleanup messages add remove =>
    obtain ⟨effect, after, _⟩ := cleanup_effect h hs
    cases hb : s.mailbox m
    case none        => rw [effect.after, hb]; rfl
    case some before =>
      rw [(after m before hb).left, Option.map_some, onLabels]

end LocalChange

namespace Db

variable {db db₁ db₂ : Db} {op : OutboxOp} {inbox : MessageId → Bool} {id : Rowid} {step : Later}

theorem hasOp_enqueue (op : OutboxOp) (now : Millis) : (db.enqueue op now).HasOp db.outbox.nextRowid op :=
  ⟨_, Table.mem_insertRow.mpr (.inr rfl), rfl, rfl⟩

theorem HasOp.enqueue (h : db.HasOp id op) (op' : OutboxOp) (now : Millis) : (db.enqueue op' now).HasOp id op :=
  h.imp fun _ hr => ⟨Table.mem_insertRow.mpr (.inl hr.left), hr.right⟩

-- Performing an op does its part and leaves it in the outbox.
theorem perform_spec (h : db.mail.Ready) (hs : db.perform op inbox now = .ok db₁) :
    db₁.mail.Ready ∧ db₁.mail.threadOf = db.mail.threadOf ∧
    (∀ m, db₁.mail.mailbox m = (db.mail.mailbox m).map (diffWrite (op.diffs inbox) m).apply) ∧
    db₁.HasOp db.outbox.nextRowid op ∧ ∀ id op', db.HasOp id op' → db₁.HasOp id op' := by
  have ⟨w, hw, hs⟩ := Except.bind_eq_ok.mp hs
  have ⟨⟨mail, changes⟩, hf, hs⟩ := Except.bind_eq_ok.mp hs
  cases Except.pure_eq_ok.mp hs
  have ⟨ready, threads, mailbox⟩ := ((MailWriter.ready_start h).modifyEach hw).finish hf
  exact ⟨ready, threads, mailbox_diffs mailbox, hasOp_enqueue op now, fun _ _ h => h.enqueue op now⟩

theorem HasOp.enqueueAll (h : db.HasOp id op) (ops : List OutboxOp) (now : Millis) :
    (ops.foldl (·.enqueue · now) db).HasOp id op :=
  List.foldl_preserves (P := fun db : Db => db.HasOp id op) (fun op' _ h => h.enqueue op' now) h

theorem mail_discardDraft {draft : Rowid} {now : Millis} : (db.discardDraft draft now).mail = db.mail := by
  rw [discardDraft]
  split
  · rfl
  · dsimp only
    split <;> rfl

theorem HasOp.discardDraft {draft : Rowid} {now : Millis} (h : db.HasOp id op) :
    (db.discardDraft draft now).HasOp id op := by
  rw [Db.discardDraft]
  split
  · exact h
  · dsimp only
    split
    · exact HasOp.enqueue h _ now
    · exact h

theorem mail_complete : (db.complete id).mail = db.mail := by
  rw [complete]
  split
  · rfl
  · dsimp only
    split
    · exact mail_discardDraft
    · rfl

theorem HasOp.complete (h : db.HasOp id op) (hne : other ≠ id) : (db.complete other).HasOp id op := by
  have deleteOp : ∀ {db : Db}, db.HasOp id op → (db.deleteOp other).HasOp id op :=
    fun ⟨row, hr, hid, hop⟩ => ⟨row, Table.mem_delete.mpr ⟨hr, decide_eq_false (hid ▸ hne.symm)⟩, hid, hop⟩
  rw [Db.complete]
  split
  · exact h
  · dsimp only
    split
    · exact deleteOp h.discardDraft
    · exact deleteOp h

-- What one later step does to the mail, and that it leaves every op that does not reach the provider.
theorem later_spec (h : db.mail.Ready) (hs : db.later step = .ok db₁) :
    db₁.mail.Ready ∧ db₁.mail.threadOf = db.mail.threadOf ∧
    (∀ m, db₁.mail.mailbox m = (db.mail.mailbox m).map (step.onLabels db.mail.threadOf m ·)) ∧
    ∀ id op, step ≠ .complete id → db.HasOp id op → db₁.HasOp id op := by
  cases step
  case change c record now =>
    have ⟨⟨db', applied⟩, hc, he⟩ := Except.map_eq_ok.mp hs
    cases he
    have ⟨a, ha, hmail, houtbox⟩ := applyLocalChangeRecorded_eq hc
    have ⟨_, effect⟩ := c.applyTo_effect h ha
    refine ⟨hmail ▸ effect.ready, hmail ▸ effect.threads, fun m => ?_, fun id op _ hop => ?_⟩
    · rw [hmail]
      exact c.applyTo_onLabels h ha m
    · exact (hop.enqueueAll a.ops now).imp fun row hr => ⟨houtbox ▸ hr.left, hr.right⟩
  case perform op inbox now =>
    have ⟨ready, threads, mailbox, _, hops⟩ := perform_spec h hs
    exact ⟨ready, threads, mailbox, fun id op _ => hops id op⟩
  case complete other =>
    cases hs
    rw [mail_complete]
    refine ⟨h, rfl, fun m => ?_, fun id op hne hop => hop.complete fun he => hne (he ▸ rfl)⟩
    simp [Later.onLabels]

theorem laterAll_spec {steps : List Later} (h : db.mail.Ready) (hs : steps.foldlM Db.later db = .ok db₁) :
    db₁.mail.Ready ∧
    (∀ m, db₁.mail.mailbox m = (db.mail.mailbox m).map
      (laterLabels db.mail.threadOf steps m ·)) ∧
    ∀ id op, .complete id ∉ steps → db.HasOp id op → db₁.HasOp id op := by
  induction steps generalizing db
  case nil =>
    cases List.foldlM_nil_eq_ok.mp hs
    exact ⟨h, fun m => by simp [laterLabels], fun _ _ _ => id⟩
  case cons step steps ih =>
    have ⟨db₂, h₁, hs⟩ := List.foldlM_cons_eq_ok.mp hs
    have ⟨ready, threads, mailbox, hops⟩ := later_spec h h₁
    have ⟨ready', mailbox', hops'⟩ := ih ready hs
    refine ⟨ready', fun m => ?_, fun id op hid hop => ?_⟩
    · rw [mailbox', mailbox, threads, Option.map_map]
      rfl
    · rw [List.mem_cons, not_or] at hid
      exact hops' id op hid.right (hops id op (Ne.symm hid.left) hop)

end Db

-- The labels that trashing recorded for a message.
def recordedFor (previous : List (MessageId × List LabelId)) (m : MessageId) : Option (List LabelId) :=
  ((previous.filter (·.1 = m)).getLast?).map (·.2)

-- When a failed op on a message commutes with what came later: the later changes alone would have left
-- the labels as the op found them. For a label change these are the labels it names, and the others must
-- not hang on them. Trashing names all labels, as it restores what it recorded.
def OutboxOp.Commutes (inbox : MessageId → Bool) (m : MessageId) (before : Set LabelId)
    (later : Set LabelId → Set LabelId) : OutboxOp → Prop
  | modifyLabels ids add remove => m ∈ ids →
      (∀ l ∈ remove, l ∈ later before) ∧ (∀ l ∈ add, l ∉ remove → l ∉ later before) ∧
      ∀ l, l ∉ remove → l ∉ add → (l ∈ later ((Overwrite.edit add remove).apply before) ↔ l ∈ later before)
  | trash ids previous => match recordedFor previous m with
      | some labels => ∀ l, l ∈ labels ↔ l ∈ later before
      | none => m ∈ ids →
        later ((Overwrite.edit [TRASH] (if inbox m then [INBOX] else [])).apply before) = later before
  | untrash ids => m ∈ ids → TRASH ∈ later before ∧
      ∀ l, l ≠ TRASH → (l ∈ later ((Overwrite.edit [] [TRASH]).apply before) ↔ l ∈ later before)
  | _ => True

theorem prod_recorded (previous : List (MessageId × List LabelId)) (m : MessageId) :
    ((previous.filter (·.1 = m)).map (Overwrite.assign ·.2)).prod =
      ((recordedFor previous m).elim 1 .assign) := by
  rw [recordedFor]
  induction previous.filter (·.1 = m)
  case nil => rfl
  case cons p ps ih =>
    rw [List.map_cons, List.prod_cons, ih, List.getLast?_cons]
    cases ps.getLast? <;> rfl

theorem OutboxOp.commutes_iff {op : OutboxOp} {before : Set LabelId} {later : Set LabelId → Set LabelId}
    (hop : op.isLabelOp) :
    (op.undoWrite m).apply (later ((diffWrite (op.diffs inbox) m).apply before)) = later before ↔
    op.Commutes inbox m before later := by
  rw [Overwrite.apply_eq_iff]
  cases op <;> simp only [isLabelOp, Bool.false_eq_true] at hop
  case modifyLabels ids add remove =>
    rw [diffs, diffWrite_map]
    by_cases hm : m ∈ ids
    case neg => simp [undoWrite, Commutes, hm]
    case pos =>
      simp only [undoWrite, Commutes, hm, if_true, Overwrite.agrees_edit, Overwrite.edit_eq_none,
        and_assoc, and_imp, true_implies]
  case untrash ids =>
    rw [diffs, diffWrite_map]
    by_cases hm : m ∈ ids
    case neg => simp [undoWrite, Commutes, hm]
    case pos =>
      simp [undoWrite, Commutes, hm, Overwrite.agrees_edit, Overwrite.edit_eq_none]
  case trash ids previous =>
    rw [diffs, diffWrite_map, undoWrite, prod_recorded, Commutes]
    cases recordedFor previous m
    case some labels => simp [Overwrite.agrees_assign, Overwrite.assign]
    case none =>
      by_cases hm : m ∈ ids
      case neg => simp [hm]
      case pos => simp [hm, Set.ext_iff]

namespace Db

variable {db db₁ db₂ db₃ : Db} {op : OutboxOp} {inbox : MessageId → Bool} {now : Millis} {later : List Later}

-- After an op was queued and other changes were made, its failure leaves the labels that those changes
-- alone would have left exactly for the ops that commute with them.
theorem fail_after_later_iff (h : db.mail.Ready) (hop : op.isLabelOp)
    (hp : db.perform op inbox now = .ok db₁) (hl : later.foldlM Db.later db₁ = .ok db₂)
    (hid : .complete db.outbox.nextRowid ∉ later) (hw : later.foldlM Db.later db = .ok db₃)
    (error : String) :
    (∃ r, db₂.fail db.outbox.nextRowid error = .ok r ∧ r.1.mail.mailbox = db₃.mail.mailbox) ↔
    op.Undoable (fun m => db.mail.mailbox m ≠ none) ∧ ∀ m before, db.mail.mailbox m = some before →
      op.Commutes inbox m before (laterLabels db.mail.threadOf later m) := by
  have ⟨ready₁, threads₁, mailbox₁, queued, _⟩ := perform_spec h hp
  have ⟨ready₂, mailbox₂, kept⟩ := laterAll_spec ready₁ hl
  have ⟨_, mailbox₃, _⟩ := laterAll_spec h hw
  obtain ⟨row, hr, hrid, rfl⟩ := kept _ _ hid queued
  rw [← hrid]
  have stored : ∀ m, db₂.mail.mailbox m ≠ none ↔ db.mail.mailbox m ≠ none := by
    intro m
    rw [mailbox₂, mailbox₁, ne_eq, ne_eq, Option.map_eq_none_iff, Option.map_eq_none_iff]
  have ok_iff := fail_label_ok ready₂ hr hop error
  simp only [stored] at ok_iff
  have same : ∀ r, db₂.fail row.id error = .ok r → (r.1.mail.mailbox = db₃.mail.mailbox ↔
      ∀ m before, db.mail.mailbox m = some before →
        row.op.Commutes inbox m before (laterLabels db.mail.threadOf later m)) := by
    intro r hf
    have ⟨_, _, _, mailbox⟩ := fail_label ready₂ hr hop hf
    rw [funext_iff]
    refine forall_congr' fun m => ?_
    rw [mailbox, mailbox₂, mailbox₁, mailbox₃, threads₁]
    cases db.mail.mailbox m
    case none        => simp
    case some before => simp [← OutboxOp.commutes_iff hop]
  rw [← ok_iff]
  exact ⟨fun ⟨r, hf, he⟩ => ⟨⟨r, hf⟩, (same r hf).mp he⟩, fun ⟨⟨r, hf⟩, he⟩ => ⟨r, hf, (same r hf).mpr he⟩⟩

-- A thread in the Inbox.
def receivedThread : Transaction where
  storedLabels := .replace
  writes       := [.upsertMessage { id := "m1", threadId := "t1", labelIds := ["INBOX"] }]

def received : Db where
  mail := Store.init.commit receivedThread

theorem received_ready : received.mail.Ready :=
  have provided : receivedThread.Provided := by simp [Transaction.Provided, receivedThread]
  Store.ready_init.commit provided

-- Later the thread is starred.
def starLater : List Later :=
  [.change (.setStarred ["t1"] true) none 0]

theorem fail_after_star : ∃ db₁ db₂ db₃,
    received.perform (.trash ["m1"] [("m1", ["INBOX"])]) (fun _ => true) 0 = .ok db₁ ∧
    starLater.foldlM Db.later db₁ = .ok db₂ ∧ starLater.foldlM Db.later received = .ok db₃ ∧
    ((∃ r, db₂.fail received.outbox.nextRowid "" = .ok r ∧ r.1.mail.mailbox = db₃.mail.mailbox) ↔
      (OutboxOp.trash ["m1"] [("m1", ["INBOX"])]).Undoable (fun m => received.mail.mailbox m ≠ none) ∧
      ∀ m before, received.mail.mailbox m = some before →
        (OutboxOp.trash ["m1"] [("m1", ["INBOX"])]).Commutes (fun _ => true) m before
          (laterLabels received.mail.threadOf starLater m)) := by
  have run : (received.perform (.trash ["m1"] [("m1", ["INBOX"])]) (fun _ => true) 0 >>=
      fun db₁ => starLater.foldlM Db.later db₁).toBool := by decide
  have ⟨db₂, hs⟩ := Except.exists_ok run
  have ⟨db₁, hp, hl⟩ := Except.bind_eq_ok.mp hs
  have ⟨db₃, hw⟩ := Except.exists_ok (x := starLater.foldlM Db.later received) (by decide)
  have hid : .complete received.outbox.nextRowid ∉ starLater := by simp [starLater]
  exact ⟨db₁, db₂, db₃, hp, hl, hw, fail_after_later_iff received_ready rfl hp hl hid hw ""⟩

-- Giving up on trashing a thread takes off the star that it got meanwhile.
theorem trash_loses_star : ∃ db₁ db₂ db₃ r applied₁ applied₂ applied₃,
    received.applyLocalChangeRecorded (.trash ["t1"]) true none 0 = .ok (db₁, applied₁) ∧
    db₁.applyLocalChangeRecorded (.setStarred ["t1"] true) true none 0 = .ok (db₂, applied₂) ∧
    db₂.fail received.outbox.nextRowid "" = .ok r ∧
    received.applyLocalChangeRecorded (.setStarred ["t1"] true) true none 0 = .ok (db₃, applied₃) ∧
    r.1.mail.mailbox ≠ db₃.mail.mailbox := by
  have run : (do
      let r₁ ← received.applyLocalChangeRecorded (.trash ["t1"]) true none 0
      let r₂ ← r₁.1.applyLocalChangeRecorded (.setStarred ["t1"] true) true none 0
      let r ← r₂.1.fail received.outbox.nextRowid ""
      let r₃ ← received.applyLocalChangeRecorded (.setStarred ["t1"] true) true none 0
      return decide (STARRED ∉ r.1.mail.currentLabels "m1" ∧ STARRED ∈ r₃.1.mail.currentLabels "m1")) =
      Except.ok true := by decide
  obtain ⟨⟨db₁, applied₁⟩, h₁, run⟩ := Except.bind_eq_ok.mp run
  obtain ⟨⟨db₂, applied₂⟩, h₂, run⟩ := Except.bind_eq_ok.mp run
  obtain ⟨r, hr, run⟩ := Except.bind_eq_ok.mp run
  obtain ⟨⟨db₃, applied₃⟩, h₃, run⟩ := Except.bind_eq_ok.mp run
  obtain ⟨lost, kept⟩ := of_decide_eq_true (Except.pure_eq_ok.mp run)
  refine ⟨db₁, db₂, db₃, r, applied₁, applied₂, applied₃, h₁, h₂, hr, h₃, fun he => lost ?_⟩
  cases hm : db₃.mail.mailbox "m1"
  case none => rw [Store.currentLabels_eq_nil hm] at kept; cases kept
  case some labels =>
    exact (Store.mem_currentLabels (he ▸ hm)).mpr ((Store.mem_currentLabels hm).mp kept)

end Db
end Kaluta
