import Kaluta.Sync.LocalChange

namespace Kaluta

open SystemLabels

abbrev LabelChange := List LabelId × List LabelId

variable {diffs : List MessageDiff} {c : LabelChange} {m : MessageId} {l : LabelId}

theorem mem_changesOf : c ∈ changesOf diffs ↔ c ≠ ([], []) ∧ ∃ d ∈ diffs, d.change = c := by
  have isEmpty_iff : ∀ d : MessageDiff, d.isEmpty = true ↔ d.change = ([], []) := by
    simp [MessageDiff.isEmpty, MessageDiff.change]
  simp only [changesOf, List.mem_insertionSort, List.mem_dedup, List.mem_map, List.mem_filter,
    Bool.not_eq_true', ← Bool.not_eq_true, isEmpty_iff]
  constructor
  · rintro ⟨d, ⟨hd, hne⟩, rfl⟩; exact ⟨hne, d, hd, rfl⟩
  · rintro ⟨hne, d, hd, rfl⟩; exact ⟨d, ⟨hd, hne⟩, rfl⟩

-- The message is among those with this change.
def Changes (diffs : List MessageDiff) (m : MessageId) (c : LabelChange) : Prop :=
  ∃ d ∈ diffs, d.message = m ∧ d.change = c

instance : Decidable (Changes diffs m c) :=
  inferInstanceAs (Decidable (∃ d ∈ diffs, d.message = m ∧ d.change = c))

theorem mem_group : m ∈ (diffs.filter (·.change = c)).map (·.message) ↔ Changes diffs m c := by
  simp only [List.mem_map, List.mem_filter, decide_eq_true_eq, Changes]
  constructor
  · rintro ⟨d, ⟨hd, hc⟩, hm⟩; exact ⟨d, hd, hm, hc⟩
  · rintro ⟨d, hd, hm, hc⟩; exact ⟨d, ⟨hd, hc⟩, hm⟩

-- What undoing a change writes: as a label change, its inverse. Trashed messages first get back the
-- labels they had, and then the inverse of the rest of the change.
def undoChange (batched : Bool) (before : List LabelId) (c : LabelChange) : Overwrite LabelId :=
  if batched = false ∧ TRASH ∈ c.1 then
    .assign before * .edit (restOf c.1 c.2).2 (restOf c.1 c.2).1
  else
    .edit c.2 c.1

theorem undoChange_eq_none (h : undoChange batched before c l = none) : l ∉ c.1 ∧ l ∉ c.2 := by
  rw [undoChange] at h
  split at h
  · cases (Overwrite.mul_eq_none.mp h).left
  · exact (Overwrite.edit_eq_none.mp h).symm

-- What undoing diffs writes to a message's labels: the changes it is named in, in the order of their
-- ops.
def undoDiffs (batched : Bool) (before : List LabelId) (diffs : List MessageDiff) (m : MessageId) :
    Overwrite LabelId :=
  ((changesOf diffs).map fun c => if Changes diffs m c then undoChange batched before c else 1).prod

theorem undoDiffs_eq_none (h : undoDiffs batched before diffs m l = none) : diffWrite diffs m l = none := by
  rw [undoDiffs, Overwrite.prod_eq_none, List.forall_mem_map] at h
  rw [diffWrite_eq_none]
  intro d hd hm
  by_contra hl
  have hc : d.change ∈ changesOf diffs := by
    refine mem_changesOf.mpr ⟨fun he => hl ?_, d, hd, rfl⟩
    have ⟨ha, hr⟩ : d.added = [] ∧ d.removed = [] := Prod.mk.injEq .. ▸ he
    simp [ha, hr]
  have := h _ hc
  rw [if_pos ⟨d, hd, hm, rfl⟩] at this
  exact hl (undoChange_eq_none this)

theorem undoWrites_flatMap {α : Type u} {as : List α} {f : α → List OutboxOp} :
    undoWrites (as.flatMap f) m = (as.map fun a => undoWrites (f a) m).prod := by
  induction as
  case nil          => rfl
  case cons a as ih =>
    rw [List.flatMap_cons, List.map_cons, List.prod_cons, ← ih]
    simp only [undoWrites, List.map_append, List.prod_append]

-- The batches of a group are undone like the group as a whole.
theorem undoWrites_chunks {ids : List MessageId} {add remove : List LabelId} :
    undoWrites ((chunks BATCH ids).map (.modifyLabels · add remove)) m =
      if m ∈ ids then .edit remove add else 1 := by
  rw [undoWrites, List.map_map]
  refine (Overwrite.prod_ite (chunks BATCH ids) (m ∈ ·)).trans ?_
  have : (∃ chunk ∈ chunks BATCH ids, m ∈ chunk) ↔ m ∈ ids := by
    rw [← List.mem_flatten, flatten_chunks (by decide)]
  exact if_congr this rfl rfl

theorem undoWrites_batchedOps : undoWrites (batchedOps diffs) m = undoDiffs true before diffs m := by
  rw [batchedOps, undoWrites_flatMap, groupsOf, List.map_map, undoDiffs]
  congr 1
  refine List.map_congr_left fun c _ => ?_
  exact undoWrites_chunks.trans (if_congr mem_group rfl rfl)

-- The ops of a group together undo the group's change.
theorem undoWrites_changeOps {s : Store} {ids : List MessageId} {add remove : List LabelId} :
    undoWrites (s.changeOps ids add remove) m =
      if m ∈ ids then undoChange false (s.currentLabels m) (add, remove) else 1 := by
  have untrash : undoWrites (if TRASH ∈ remove then [.untrash ids] else []) m =
      if m ∈ ids ∧ TRASH ∈ remove then .edit [TRASH] [] else 1 := by
    by_cases hr : TRASH ∈ remove <;> simp [undoWrites, OutboxOp.undoWrite, hr]
  have trash : undoWrites (if TRASH ∈ add then
      [.trash ids (ids.map fun m => (m, s.currentLabels m))] else []) m =
      if m ∈ ids ∧ TRASH ∈ add then .assign (s.currentLabels m) else 1 := by
    have current : ∀ p ∈ ids.map fun m => (m, s.currentLabels m), p.2 = s.currentLabels p.1 := by simp
    have assign := prod_assign current m
    by_cases ha : TRASH ∈ add <;> simp_all [undoWrites, OutboxOp.undoWrite]
  have labels : ∀ add remove : List LabelId, undoWrites
      (if add = [] ∧ remove = [] then [] else [.modifyLabels ids add remove]) m =
      if m ∈ ids then .edit remove add else 1 := by
    intro add remove
    by_cases hn : add = [] ∧ remove = []
    · simp [hn.left, hn.right, undoWrites]
    · simp [hn, undoWrites, OutboxOp.undoWrite]
  have append : ∀ ops ops' : List OutboxOp,
      undoWrites (ops ++ ops') m = undoWrites ops m * undoWrites ops' m := by
    simp [undoWrites]
  rw [Store.changeOps, append, append, untrash, trash, labels, undoChange]
  by_cases hm : m ∈ ids
  case neg => simp [hm]
  case pos =>
    by_cases ha : TRASH ∈ add
    case pos => simp [hm, ha, Overwrite.mul_assign]
    case neg =>
      by_cases hr : TRASH ∈ remove
      case pos =>
        simp only [hm, ha, hr, and_true, and_false, if_true, if_false, mul_one, restOf]
        exact Overwrite.edit_mul_edit hr ha
      case neg =>
        have : remove.filter (· ≠ TRASH) = remove := by
          refine List.filter_eq_self.mpr fun l hl => decide_eq_true ?_
          rintro rfl
          exact hr hl
        simp only [hm, ha, hr, and_false, if_true, if_false, one_mul, restOf, this]

theorem undoWrites_providerOps {s : Store} :
    undoWrites (s.providerOps diffs) m = undoDiffs false (s.currentLabels m) diffs m := by
  rw [Store.providerOps, undoWrites_flatMap, groupsOf, List.map_map, undoDiffs]
  congr 1
  refine List.map_congr_left fun c _ => ?_
  exact undoWrites_changeOps.trans (if_congr mem_group rfl rfl)

namespace OutboxOp

variable {op op' : OutboxOp} {kept ids : List MessageId} {stored : MessageId → Prop}

def messageIds : OutboxOp → List MessageId
  | modifyLabels ids .. => ids
  | trash ids _         => ids
  | untrash ids         => ids
  | _                   => []

-- A label op on these messages that records labels of no others.
structure On (op : OutboxOp) (ids : List MessageId) : Prop where
  label    : op.isLabelOp
  messages : ∀ m ∈ op.messageIds, m ∈ ids
  previous : ∀ ids previous, op = .trash ids previous → ∀ p ∈ previous, p.1 ∈ ids

theorem On.retain (h : op.On ids) (hs : op.retainMessages kept = some op') : op'.isLabelOp := by
  have hl := h.label
  cases op <;> simp only [isLabelOp, Bool.false_eq_true] at hl <;>
  · simp only [retainMessages] at hs
    split at hs <;> cases hs
    rfl

-- Messages that are no longer stored are left out of an op without loss.
theorem On.undoWrite_retain (h : op.On ids) (hm : m ∈ ids → m ∈ kept) :
    undoWrites (op.retainMessages kept).toList m = op.undoWrite m := by
  have hl := h.label
  have retained : ∀ ids' : List MessageId, (∀ m ∈ ids', m ∈ ids) → (m ∈ ids'.filter (· ∈ kept) ↔ m ∈ ids') := by
    intro ids' hids
    simp only [List.mem_filter, decide_eq_true_eq, and_iff_left_iff_imp]
    exact fun h' => hm (hids m h')
  cases op <;> simp only [isLabelOp, Bool.false_eq_true] at hl
  case modifyLabels ids' add remove =>
    have hk := retained ids' h.messages
    simp only [retainMessages]
    split
    case isTrue hn  => rw [hn] at hk; simp [undoWrites, undoWrite, ← hk]
    case isFalse hn => simp [undoWrites, undoWrite, hk]
  case untrash ids' =>
    have hk := retained ids' h.messages
    simp only [retainMessages]
    split
    case isTrue hn  => rw [hn] at hk; simp [undoWrites, undoWrite, ← hk]
    case isFalse hn => simp [undoWrites, undoWrite, hk]
  case trash ids' previous =>
    have hk := retained ids' h.messages
    have hp : ∀ p ∈ previous, p.1 ∈ ids' := h.previous ids' previous rfl
    simp only [retainMessages]
    split
    case isTrue hn =>
      rw [hn] at hk
      have : previous.filter (·.1 = m) = [] := by
        refine List.filter_eq_nil_iff.mpr fun p hp' he => ?_
        exact List.not_mem_nil (hk.mpr (of_decide_eq_true he ▸ hp p hp'))
      simp only [Option.toList_none, undoWrite, this]
      rfl
    case isFalse hn =>
      have : (previous.filter (·.1 ∈ kept)).filter (·.1 = m) = previous.filter (·.1 = m) := by
        rw [List.filter_filter]
        refine List.filter_congr fun p hp' => Bool.eq_iff_iff.mpr ?_
        simp only [Bool.and_eq_true, decide_eq_true_eq, and_iff_left_iff_imp]
        rintro rfl
        exact hm (h.messages _ (hp p hp'))
      simp only [Option.toList_some, undoWrites, List.map_singleton, List.prod_singleton, undoWrite, this]

theorem On.undoable_retain (h : op.On ids) (hm : ∀ m ∈ ids, stored m → m ∈ kept) :
    (∀ op' ∈ op.retainMessages kept, op'.Undoable stored) ↔ op.Undoable stored := by
  have hl := h.label
  have retained : ∀ ids' : List MessageId, (∀ m ∈ ids', m ∈ ids) →
      ((∀ m ∈ ids'.filter (· ∈ kept), ¬stored m) ↔ ∀ m ∈ ids', ¬stored m) := by
    intro ids' hids
    simp only [List.mem_filter, decide_eq_true_eq, and_imp]
    exact ⟨fun h m h' hs => h m h' (hm m (hids m h') hs) hs, fun h m h' _ => h m h'⟩
  cases op <;> simp only [isLabelOp, Bool.false_eq_true] at hl
  case modifyLabels ids' add remove =>
    have hk := retained ids' h.messages
    simp only [retainMessages]
    split
    case isTrue hn =>
      rw [hn] at hk
      simpa [Undoable] using fun _ => hk
    case isFalse hn => simp only [Option.mem_def, Option.some.injEq, forall_eq', Undoable, hk]
  case untrash ids' =>
    simp only [retainMessages]
    split <;> simp [Undoable]
  case trash ids' previous =>
    have hp : ∀ p ∈ previous, p.1 ∈ ids' := h.previous ids' previous rfl
    have hs : ∀ p ∈ previous, stored p.1 → p.1 ∈ kept :=
      fun p hp' hs => hm p.1 (h.messages p.1 (hp p hp')) hs
    simp only [retainMessages]
    split
    case isTrue hn =>
      simp only [Option.mem_def, reduceCtorEq, false_implies, implies_true, Undoable, true_iff]
      intro p hp' _ hst
      exact List.not_mem_nil (hn ▸ List.mem_filter.mpr ⟨hp p hp', decide_eq_true (hs p hp' hst)⟩)
    case isFalse hn =>
      simp only [Option.mem_def, Option.some.injEq, forall_eq', Undoable, List.mem_filter,
        decide_eq_true_eq, and_imp]
      exact ⟨fun h p hp' ha hst => h p hp' (hs p hp' hst) ha hst, fun h p hp' _ => h p hp'⟩

end OutboxOp

end Kaluta
