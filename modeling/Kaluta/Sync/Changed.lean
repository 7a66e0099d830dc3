import Kaluta.Sync.Exact

namespace Kaluta

open SystemLabels

variable {diffs : List MessageDiff} {op : OutboxOp} {s : Store} {stored : MessageId → Prop}

theorem mem_chunks {ids : List MessageId} : (∃ chunk ∈ chunks BATCH ids, m ∈ chunk) ↔ m ∈ ids := by
  rw [← List.mem_flatten, flatten_chunks (by decide)]

theorem mem_batchedOps : op ∈ batchedOps diffs ↔ ∃ c ∈ changesOf diffs,
    ∃ chunk ∈ chunks BATCH ((diffs.filter (·.change = c)).map (·.message)),
      op = .modifyLabels chunk c.1 c.2 := by
  simp only [batchedOps, groupsOf, List.mem_flatMap, List.mem_map, List.flatMap_map]
  exact exists_congr fun c => and_congr_right fun _ => exists_congr fun _ => and_congr_right fun _ => eq_comm

theorem batchedOps_on (h : op ∈ batchedOps diffs) : op.On (diffs.map (·.message)) := by
  obtain ⟨c, _, chunk, hk, rfl⟩ := mem_batchedOps.mp h
  refine ⟨rfl, fun m hm => ?_, nofun⟩
  have ⟨d, hd, hdm, _⟩ := mem_group.mp (mem_chunks.mp ⟨chunk, hk, hm⟩)
  exact hdm ▸ List.mem_map_of_mem hd

theorem mem_changesOf_of_archive (hd : d ∈ diffs) (ha : ARCHIVE_LABEL ∈ d.removed) :
    d.change ∈ changesOf diffs := by
  refine mem_changesOf.mpr ⟨fun he => ?_, d, hd, rfl⟩
  have ⟨_, hr⟩ : d.added = [] ∧ d.removed = [] := Prod.mk.injEq .. ▸ he
  exact List.not_mem_nil (hr ▸ ha)

theorem undoable_batchedOps : (∀ op ∈ batchedOps diffs, op.Undoable stored) ↔
    ∀ d ∈ diffs, ARCHIVE_LABEL ∈ d.removed → ¬stored d.message := by
  constructor
  · intro h d hd ha
    have hc := mem_changesOf_of_archive hd ha
    have ⟨chunk, hk, hm⟩ := mem_chunks.mpr
      (mem_group.mpr ⟨d, hd, rfl, rfl⟩ : d.message ∈ (diffs.filter (·.change = d.change)).map (·.message))
    exact h _ (mem_batchedOps.mpr ⟨_, hc, chunk, hk, rfl⟩) ha d.message hm
  · intro h op hop
    obtain ⟨c, _, chunk, hk, rfl⟩ := mem_batchedOps.mp hop
    intro ha m hm
    obtain ⟨d, hd, rfl, rfl⟩ := mem_group.mp (mem_chunks.mp ⟨chunk, hk, hm⟩)
    exact h d hd ha

theorem mem_providerOps : op ∈ s.providerOps diffs ↔ ∃ c ∈ changesOf diffs,
    op ∈ s.changeOps ((diffs.filter (·.change = c)).map (·.message)) c.1 c.2 := by
  simp only [Store.providerOps, groupsOf, List.mem_flatMap, List.flatMap_map]

theorem mem_changeOps {ids : List MessageId} : op ∈ s.changeOps ids add remove ↔
    (TRASH ∈ remove ∧ op = .untrash ids) ∨
    (TRASH ∈ add ∧ op = .trash ids (ids.map fun m => (m, s.currentLabels m))) ∨
    (¬((restOf add remove).1 = [] ∧ (restOf add remove).2 = []) ∧
      op = .modifyLabels ids (restOf add remove).1 (restOf add remove).2) := by
  simp only [Store.changeOps, List.mem_append, List.mem_ite_nil_left, List.mem_ite_nil_right,
    List.mem_singleton, or_assoc]

theorem archive_restOf : ARCHIVE_LABEL ∈ (restOf add remove).2 ↔ ARCHIVE_LABEL ∈ remove := by
  have trash : ARCHIVE_LABEL ≠ TRASH := by decide
  have inbox : ARCHIVE_LABEL ≠ INBOX := by decide
  rw [restOf]
  split <;> simp [trash, inbox]

theorem changeOps_on {ids : List MessageId} (h : op ∈ s.changeOps ids add remove) : op.On ids := by
  obtain ⟨_, rfl⟩ | ⟨_, rfl⟩ | ⟨_, rfl⟩ := mem_changeOps.mp h
  · exact ⟨rfl, fun _ => id, nofun⟩
  · refine ⟨rfl, fun _ => id, ?_⟩
    rintro _ _ ⟨⟩ p hp
    obtain ⟨m, hm, rfl⟩ := List.mem_map.mp hp
    exact hm
  · exact ⟨rfl, fun _ => id, nofun⟩

theorem providerOps_on (h : op ∈ s.providerOps diffs) : op.On (diffs.map (·.message)) := by
  obtain ⟨c, _, h⟩ := mem_providerOps.mp h
  have hg : ∀ m ∈ (diffs.filter (·.change = c)).map (·.message), m ∈ diffs.map (·.message) :=
    fun m hm => List.map_subset _ (List.filter_subset_self _) hm
  have on := changeOps_on h
  exact ⟨on.label, fun m hm => hg m (on.messages m hm), on.previous⟩

theorem undoable_changeOps {ids : List MessageId} (ha : ∀ m, stored m → ARCHIVE_LABEL ∉ s.currentLabels m) :
    (∀ op ∈ s.changeOps ids add remove, op.Undoable stored) ↔
      (ARCHIVE_LABEL ∈ remove → ∀ m ∈ ids, ¬stored m) := by
  constructor
  · intro h hr
    have hr : ARCHIVE_LABEL ∈ (restOf add remove).2 := archive_restOf.mpr hr
    have hne : ¬((restOf add remove).1 = [] ∧ (restOf add remove).2 = []) :=
      fun hn => List.not_mem_nil (hn.right ▸ hr)
    exact h _ (mem_changeOps.mpr (.inr (.inr ⟨hne, rfl⟩))) hr
  · intro h op hop
    obtain ⟨_, rfl⟩ | ⟨_, rfl⟩ | ⟨_, rfl⟩ := mem_changeOps.mp hop
    · trivial
    · intro p hp hl hs
      obtain ⟨m, _, rfl⟩ := List.mem_map.mp hp
      exact ha m hs hl
    · exact fun hr => h (archive_restOf.mp hr)

theorem undoable_providerOps (ha : ∀ m, stored m → ARCHIVE_LABEL ∉ s.currentLabels m) :
    (∀ op ∈ s.providerOps diffs, op.Undoable stored) ↔
      ∀ d ∈ diffs, ARCHIVE_LABEL ∈ d.removed → ¬stored d.message := by
  constructor
  · intro h d hd hr
    refine (undoable_changeOps ha).mp (fun op hop => h op (mem_providerOps.mpr ⟨_, ?_, hop⟩)) hr d.message
      (mem_group.mpr ⟨d, hd, rfl, rfl⟩)
    exact mem_changesOf_of_archive hd hr
  · intro h op hop
    have ⟨c, _, hop⟩ := mem_providerOps.mp hop
    refine (undoable_changeOps ha).mpr (fun hr m hm => ?_) op hop
    obtain ⟨d, hd, rfl, rfl⟩ := mem_group.mp hm
    exact h d hd hr

namespace MailWriter.Ready

variable {w w' : MailWriter}

-- Diffs apply to the messages that are stored, and only those count as applied.
theorem applyExact (h : w.Ready) (hs : w.applyExact diffs = .ok (w', applied)) :
    w.Writes (diffs.map (·.write)) w' ∧
    applied = diffs.filter fun d => (w.tx.mailbox d.message).isSome := by
  suffices ∀ acc, diffs.foldlM (fun p d => do
      let r ← p.1.modifyMessageLabels d.message d.added d.removed
      return (r.1, if r.2 then p.2 ++ [d] else p.2)) (w, acc) = .ok (w', applied) →
      w.Writes (diffs.map (·.write)) w' ∧
      applied = acc ++ diffs.filter fun d => (w.tx.mailbox d.message).isSome by
    simpa using this [] hs
  clear hs
  induction diffs generalizing w
  case nil =>
    intro acc hs
    cases List.foldlM_nil_eq_ok.mp hs
    exact ⟨.nil h, by simp⟩
  case cons d ds ih =>
    intro acc hs
    obtain ⟨⟨w₁, acc₁⟩, h₁, hs⟩ := List.foldlM_cons_eq_ok.mp hs
    obtain ⟨⟨w₁', found⟩, hm, h₁⟩ := Except.bind_eq_ok.mp h₁
    cases Except.pure_eq_ok.mp h₁
    have hw := h.modify hm
    obtain ⟨_, _, _, hfound⟩ := h.modifyMessageLabels hm
    obtain ⟨hw', happlied⟩ := ih hw.ready _ hs
    refine ⟨hw.append hw', ?_⟩
    have stored : ∀ m, (w₁'.tx.mailbox m).isSome = (w.tx.mailbox m).isSome :=
      fun m => by rw [hw.mailbox, Cells.isSome_modifyAll]
    rw [happlied, hfound, List.filter_cons]
    simp only [stored]
    split <;> simp [*]

end MailWriter.Ready

theorem undoWrites_filterMap {ops : List OutboxOp} {f : OutboxOp → Option OutboxOp}
    (h : ∀ op ∈ ops, undoWrites (f op).toList m = op.undoWrite m) :
    undoWrites (ops.filterMap f) m = undoWrites ops m := by
  rw [List.filterMap_eq_flatMap_toList, undoWrites_flatMap, undoWrites]
  exact congrArg _ (List.map_congr_left h)

namespace LocalChange

variable {a : Applied}

-- The ops of exact diffs, each with the messages that are still stored.
theorem exact_ops (h : s.Ready) (hs : (LocalChange.exact diffs batched).applyTo s = .ok a) :
    ∃ kept, (∀ m ∈ diffs.map (·.message), s.mailbox m ≠ none → m ∈ kept) ∧
    a.ops = (if batched then batchedOps diffs else s.providerOps diffs).filterMap (·.retainMessages kept) ∧
    ∀ op ∈ if batched then batchedOps diffs else s.providerOps diffs, op.On (diffs.map (·.message)) := by
  have ⟨⟨w, applied⟩, hw, hs⟩ := Except.bind_eq_ok.mp hs
  have ⟨_, _, hs⟩ := Except.bind_eq_ok.mp hs
  cases Except.pure_eq_ok.mp hs
  have ⟨_, happlied⟩ := (MailWriter.ready_start h).applyExact hw
  refine ⟨applied.map (·.message), fun m hm hst => ?_, rfl, fun op hop => ?_⟩
  · obtain ⟨d, hd, rfl⟩ := List.mem_map.mp hm
    refine List.mem_map_of_mem (happlied ▸ List.mem_filter.mpr ⟨hd, ?_⟩)
    exact Option.isSome_iff_ne_none.mpr hst
  · split at hop
    · exact batchedOps_on hop
    · exact providerOps_on hop

theorem exact_effect (h : s.Ready) (hs : (LocalChange.exact diffs batched).applyTo s = .ok a) :
    a.Effect s diffs ∧
    (∀ m, s.mailbox m ≠ none → undoWrites a.ops m = undoDiffs batched (s.currentLabels m) diffs m) ∧
    ((∀ op ∈ a.ops, op.Undoable fun m => s.mailbox m ≠ none) ↔
      ∀ d ∈ diffs, ARCHIVE_LABEL ∈ d.removed → ¬(s.mailbox d.message ≠ none)) := by
  have ⟨ids, kept, hops, on⟩ := exact_ops h hs
  have ⟨⟨w, applied⟩, hw, hs⟩ := Except.bind_eq_ok.mp hs
  have ⟨⟨mail, changes⟩, hf, hs⟩ := Except.bind_eq_ok.mp hs
  cases Except.pure_eq_ok.mp hs
  have ⟨writes, _⟩ := (MailWriter.ready_start h).applyExact hw
  have ⟨ready, threads, mailbox⟩ := writes.finish hf
  have undo : ∀ m, s.mailbox m ≠ none → undoWrites ((if batched then batchedOps diffs else
      s.providerOps diffs).filterMap (·.retainMessages ids)) m =
      undoDiffs batched (s.currentLabels m) diffs m := by
    intro m hst
    rw [undoWrites_filterMap fun op hop => (on op hop).undoWrite_retain fun hm => kept m hm hst]
    cases batched
    case false => exact undoWrites_providerOps
    case true  => exact undoWrites_batchedOps
  rw [hops]
  refine ⟨⟨ready, threads, mailbox, ?_, fun m l hst hn => ?_⟩, undo, ?_⟩
  · intro op hop
    rw [hops] at hop
    have ⟨op', hop', hr⟩ := List.mem_filterMap.mp hop
    exact (on op' hop').retain hr
  · rw [hops, undo m hst] at hn
    exact undoDiffs_eq_none hn
  · have archive : ∀ m, s.mailbox m ≠ none → ARCHIVE_LABEL ∉ s.currentLabels m := by
      intro m hst ha
      have ⟨_, hm⟩ := Option.ne_none_iff_exists'.mp hst
      exact h.not_mem_archive hm ((Store.mem_currentLabels hm).mp ha)
    have retained : (∀ op ∈ (if batched then batchedOps diffs else s.providerOps diffs).filterMap
        (·.retainMessages ids), op.Undoable fun m => s.mailbox m ≠ none) ↔
        ∀ op ∈ if batched then batchedOps diffs else s.providerOps diffs,
          op.Undoable fun m => s.mailbox m ≠ none := by
      simp only [List.mem_filterMap, forall_exists_index, and_imp]
      constructor
      · exact fun hu op hop => ((on op hop).undoable_retain kept).mp fun op' hr => hu op' op hop hr
      · exact fun hu op' op hop hr => ((on op hop).undoable_retain kept).mpr (hu op hop) op' hr
    refine retained.trans ?_
    cases batched
    case false => exact undoable_providerOps archive
    case true  => exact undoable_batchedOps

end LocalChange

-- What Clean Up makes of a message's labels.
open Classical in
noncomputable def cleaned (add remove : List LabelId) (labels : Set LabelId) : Set LabelId :=
  if SPAM ∈ add ∧ SENT ∈ labels then labels else (Overwrite.edit add remove).apply labels

theorem cleaned_cleaned {labels : Set LabelId} :
    cleaned add remove (cleaned add remove labels) = cleaned add remove labels := by
  by_cases hs : SPAM ∈ add ∧ SENT ∈ labels
  case pos =>
    have : cleaned add remove labels = labels := if_pos hs
    rw [this, this]
  case neg =>
    have : cleaned add remove labels = (Overwrite.edit add remove).apply labels := if_neg hs
    rw [this, cleaned, Overwrite.apply_apply, ite_self]

-- A diff that adds only what is missing and removes only what is there.
def MessageDiff.Fresh (d : MessageDiff) (labels : Set LabelId) : Prop :=
  (∀ l ∈ d.added, l ∉ labels) ∧ ∀ l ∈ d.removed, l ∈ labels

theorem MessageDiff.Fresh.agrees_undo {d : MessageDiff} {labels : Set LabelId} (h : d.Fresh labels) :
    (Overwrite.edit d.removed d.added).Agrees labels :=
  Overwrite.agrees_edit.mpr ⟨h.right, fun l hl _ => h.left l hl⟩

namespace MailWriter.Ready

variable {w w' : MailWriter}

theorem cleanupMessage (h : w.Ready) (hs : w.cleanupMessage m add remove = .ok (w', d)) :
    w.Writes (d.toList.map (·.write)) w' ∧ (∀ d' ∈ d, d'.message = m) ∧
    ∀ labels, w.tx.mailbox m = some labels → w'.tx.mailbox m = some (cleaned add remove labels) ∧
      ∀ d' ∈ d, d'.Fresh labels ∧ cleaned add remove labels ≠ labels := by
  have current : ∀ labels, w.tx.mailbox m = some labels → ∀ l, l ∈ w.tx.currentLabels m ↔ l ∈ labels :=
    fun _ hm _ => Store.mem_currentLabels hm
  have kept : ∀ labels, w.tx.mailbox m = some labels → ∀ l,
      l ∈ (Overwrite.edit (add.filter (· ∉ w.tx.currentLabels m))
        (remove.filter fun l => l ∈ w.tx.currentLabels m && l ∉ add)).apply labels ↔
      l ∈ (Overwrite.edit add remove).apply labels := by
    intro labels hm l
    simp only [Overwrite.mem_apply_edit, List.mem_filter, decide_eq_true_eq, Bool.and_eq_true,
      current labels hm]
    tauto
  simp only [MailWriter.cleanupMessage] at hs
  split at hs
  case isTrue hskip =>
    cases hs
    refine ⟨.nil h, (by simp), fun labels hm => ⟨?_, (by simp)⟩⟩
    rw [hm, Option.some_inj]
    by_cases hspam : SPAM ∈ add ∧ SENT ∈ labels
    case pos => exact (if_pos hspam).symm
    case neg =>
      rw [cleaned, if_neg hspam]
      obtain ⟨ha, hr⟩ := hskip.resolve_left (by rwa [current labels hm])
      ext l
      rw [← kept labels hm, ha, hr, Overwrite.edit_nil, Overwrite.apply_one]
      rfl
  case isFalse hdo =>
    obtain ⟨⟨w₁, found⟩, hw, hs⟩ := Except.bind_eq_ok.mp hs
    cases Except.pure_eq_ok.mp hs
    have writes := h.modify hw
    refine ⟨writes, by rintro _ ⟨⟩; rfl, fun labels hm => ?_⟩
    rw [current labels hm, not_or] at hdo
    have hc : cleaned add remove labels = (Overwrite.edit add remove).apply labels := if_neg hdo.left
    have fresh : (⟨m, add.filter (· ∉ w.tx.currentLabels m),
        remove.filter fun l => l ∈ w.tx.currentLabels m && l ∉ add⟩ : MessageDiff).Fresh labels := by
      simp only [MessageDiff.Fresh, List.mem_filter, decide_eq_true_eq, Bool.and_eq_true,
        current labels hm]
      exact ⟨fun l hl => hl.right, fun l hl => hl.right.left⟩
    constructor
    · rw [writes.mailbox, Cells.modifyAll, List.foldl_cons, List.foldl_nil, Cells.modify_self, hm,
        Option.map_some, Option.some_inj, hc]
      exact Set.ext (kept labels hm)
    · rintro _ ⟨⟩
      refine ⟨fresh, fun he => hdo.right ?_⟩
      rw [hc, Overwrite.apply_eq_self, Overwrite.agrees_edit] at he
      simp only [List.filter_eq_nil_iff, decide_eq_true_eq, Bool.and_eq_true, not_not, not_and,
        current labels hm]
      exact ⟨he.left, fun l hl hin => by_contra fun hna => he.right l hl hna hin⟩

theorem applyCleanup {messages : List MessageId} (h : w.Ready)
    (hs : w.applyCleanup messages add remove = .ok (w', diffs)) :
    w.Writes (diffs.map (·.write)) w' ∧ ∀ m labels, w.tx.mailbox m = some labels →
      w'.tx.mailbox m = some (if m ∈ messages then cleaned add remove labels else labels) ∧
      ∀ d ∈ diffs, d.message = m → d.Fresh labels ∧ cleaned add remove labels ≠ labels := by
  suffices ∀ acc, messages.foldlM (fun p m => do
      let r ← p.1.cleanupMessage m add remove
      return (r.1, p.2 ++ r.2.toList)) (w, acc) = .ok (w', diffs) → ∃ ds, diffs = acc ++ ds ∧
      w.Writes (ds.map (·.write)) w' ∧ ∀ m labels, w.tx.mailbox m = some labels →
        w'.tx.mailbox m = some (if m ∈ messages then cleaned add remove labels else labels) ∧
        ∀ d ∈ ds, d.message = m → d.Fresh labels ∧ cleaned add remove labels ≠ labels by
    obtain ⟨ds, rfl, hw⟩ := this [] hs
    exact hw
  clear hs
  induction messages generalizing w
  case nil =>
    intro acc hs
    cases List.foldlM_nil_eq_ok.mp hs
    exact ⟨[], by simp, .nil h, fun m labels hm => ⟨by simpa using hm, (by simp)⟩⟩
  case cons m₀ ms ih =>
    intro acc hs
    obtain ⟨⟨w₁, acc₁⟩, h₁, hs⟩ := List.foldlM_cons_eq_ok.mp hs
    obtain ⟨⟨w₁', d⟩, hc, h₁⟩ := Except.bind_eq_ok.mp h₁
    cases Except.pure_eq_ok.mp h₁
    obtain ⟨writes₀, hd₀, one⟩ := h.cleanupMessage hc
    obtain ⟨ds, rfl, writes, rest⟩ := ih writes₀.ready _ hs
    refine ⟨d.toList ++ ds, by simp, ?_, fun m labels hm => ?_⟩
    · rw [List.map_append]
      exact writes₀.append writes
    · by_cases he : m = m₀
      case pos =>
        subst he
        obtain ⟨hm₁, hd⟩ := one labels hm
        obtain ⟨hm', hds⟩ := rest m _ hm₁
        rw [cleaned_cleaned, ite_self] at hm'
        refine ⟨by simpa using hm', fun d' hd' hdm => ?_⟩
        obtain hd' | hd' := List.mem_append.mp hd'
        · exact hd d' (Option.mem_toList.mp hd')
        · exact absurd cleaned_cleaned (hds d' hd' hdm).right
      case neg =>
        have hm₁ : w₁'.tx.mailbox m = some labels := by
          rw [writes₀.mailbox, Cells.modifyAll_apply, hm, Option.map_some, List.filter_eq_nil_iff.mpr]
          · rfl
          · intro p hp hpm
            obtain ⟨d', hd', rfl⟩ := List.mem_map.mp hp
            exact he ((of_decide_eq_true hpm).symm.trans (hd₀ d' (Option.mem_toList.mp hd')))
        obtain ⟨hm', hds⟩ := rest m labels hm₁
        refine ⟨by simpa [he] using hm', fun d' hd' hdm => ?_⟩
        obtain hd' | hd' := List.mem_append.mp hd'
        · exact absurd (hdm.symm.trans (hd₀ d' (Option.mem_toList.mp hd'))) he
        · exact hds d' hd' hdm

end MailWriter.Ready

namespace LocalChange

variable {a : Applied} {messages : List MessageId}

-- Undoing a Clean Up writes nothing to a message but what was there before.
theorem cleanup_effect (h : s.Ready) (hs : (cleanup messages add remove).applyTo s = .ok a) :
    a.Effect s a.diffs ∧
    (∀ m before, s.mailbox m = some before →
      a.mail.mailbox m = some (if m ∈ messages then cleaned add remove before else before) ∧
      (undoWrites a.ops m).Agrees before) ∧
    ∀ op ∈ a.ops, op.Undoable fun m => s.mailbox m ≠ none := by
  have ⟨⟨w, diffs⟩, hw, hs⟩ := Except.bind_eq_ok.mp hs
  have ⟨⟨mail, changes⟩, hf, hs⟩ := Except.bind_eq_ok.mp hs
  cases Except.pure_eq_ok.mp hs
  have ⟨writes, hm⟩ := (MailWriter.ready_start h).applyCleanup hw
  have ⟨ready, threads, mailbox⟩ := writes.finish hf
  have undo : ∀ m, undoWrites (batchedOps diffs) m = undoDiffs true [] diffs m :=
    fun m => undoWrites_batchedOps
  refine ⟨⟨ready, threads, mailbox, fun op hop => (batchedOps_on hop).label, ?_⟩, ?_, ?_⟩
  · intro m l _ hn
    exact undoDiffs_eq_none (undo m ▸ hn)
  · intro m before hb
    have ⟨hm', fresh⟩ := hm m before hb
    refine ⟨by rw [mailbox, ← writes.mailbox]; exact hm', ?_⟩
    refine (undo m).symm ▸ Overwrite.agrees_prod fun o ho => ?_
    obtain ⟨c, _, rfl⟩ := List.mem_map.mp ho
    split
    case isTrue hc =>
      obtain ⟨d, hd, hdm, rfl⟩ := hc
      exact (fresh d hd hdm).left.agrees_undo
    case isFalse => exact Overwrite.agrees_one
  · refine undoable_batchedOps.mpr fun d hd ha hst => ?_
    have ⟨before, hb⟩ := Option.ne_none_iff_exists'.mp hst
    exact h.not_mem_archive hb (((hm _ before hb).right d hd rfl).left.right _ ha)

end LocalChange
end Kaluta
