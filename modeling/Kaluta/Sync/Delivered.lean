import Kaluta.Sync.Performed

namespace Kaluta

open SystemLabels

-- The most ids Gmail takes in one call.
def MAX_BATCH_MODIFY : Nat := 1000

-- A call to the provider.
inductive ProviderCall
  | batchModify (ids : List MessageId) (add remove : List LabelId)
  | trash (id : MessageId)
  | untrash (id : MessageId)
  deriving DecidableEq, Repr

namespace ProviderCall

def ids : ProviderCall → List MessageId
  | batchModify ids .. => ids
  | trash id           => [id]
  | untrash id         => [id]

-- What a call does at the server: trashing also takes a message out of the Inbox.
def diffs : ProviderCall → List MessageDiff
  | batchModify ids add remove => ids.map (⟨·, add, remove⟩)
  | trash id                   => [⟨id, [TRASH], [INBOX]⟩]
  | untrash id                 => [⟨id, [], [TRASH]⟩]

end ProviderCall

-- The calls that deliver an op.
def OutboxOp.calls : OutboxOp → List ProviderCall
  | modifyLabels ids add remove => (chunks MAX_BATCH_MODIFY ids).map (.batchModify · add remove)
  | trash ids _                 => ids.map .trash
  | untrash ids                 => ids.map .untrash
  | _                           => []

-- The provider's side: each message it has, with its labels.
abbrev Server := MessageId → Option (Set LabelId)

namespace Server

-- A message that the server has no more is passed over.
def call (server : Server) (c : ProviderCall) : Server :=
  Cells.modifyAll server (c.diffs.map (·.write))

def deliver (server : Server) (ops : List OutboxOp) : Server :=
  (ops.flatMap (·.calls)).foldl call server

end Server

-- The labels a diff asks for.
def MessageDiff.asked (d : MessageDiff) (labels : Set LabelId) : Set LabelId :=
  (Overwrite.edit d.added d.removed).apply labels

-- The labels a diff asks for of the trash endpoints: a message put in Trash is out of the Inbox too,
-- unless the diff puts it there.
def MessageDiff.askedOfTrash (d : MessageDiff) (labels : Set LabelId) : Set LabelId :=
  (Overwrite.edit d.added (besides true d.added d.removed)).apply labels

-- The messages that share a change.
def membersOf (diffs : List MessageDiff) (c : LabelChange) : List MessageId :=
  (diffs.filter (·.change = c)).map (·.message)

namespace OutboxOp

variable {op : OutboxOp} {server : Server} {ops : List OutboxOp} {m : MessageId}

theorem length_of_mem_chunks {l chunk : List α} (h : chunk ∈ chunks n l) : chunk.length ≤ n := by
  fun_induction chunks n l
  case case1 => exact absurd h List.not_mem_nil
  case case2 l _ ih =>
    rcases List.mem_cons.mp h with rfl | h
    · exact List.length_take_le n l
    · exact ih h

theorem length_ids_le {c : ProviderCall} (h : c ∈ op.calls) : c.ids.length ≤ MAX_BATCH_MODIFY := by
  cases op <;> simp only [calls, List.mem_map, List.not_mem_nil] at h
  case modifyLabels ids add remove =>
    obtain ⟨chunk, hc, rfl⟩ := h
    exact length_of_mem_chunks hc
  case trash =>
    obtain ⟨_, _, rfl⟩ := h
    exact Nat.le_of_ble_eq_true rfl
  case untrash =>
    obtain ⟨_, _, rfl⟩ := h
    exact Nat.le_of_ble_eq_true rfl

-- A call after another: the diffs of all of them, in order.
theorem diffs_calls : op.calls.flatMap (·.diffs) = op.diffs fun _ => true := by
  cases op <;> simp only [calls, diffs, List.flatMap_map, List.flatMap_nil]
  case modifyLabels ids add remove =>
    have part : (chunks MAX_BATCH_MODIFY ids).flatMap (fun chunk => (ProviderCall.batchModify chunk add remove).diffs) =
        (chunks MAX_BATCH_MODIFY ids).flatten.map (⟨·, add, remove⟩) := by
      rw [List.map_flatten]
      rfl
    rw [part, flatten_chunks (by decide)]
  case trash ids _ => exact List.flatMap_singleton' ids ▸ (List.map_eq_flatMap ..).symm
  case untrash ids => exact (List.map_eq_flatMap ..).symm

end OutboxOp

namespace Server

variable {server : Server} {ops : List OutboxOp} {m : MessageId}

theorem foldl_call {calls : List ProviderCall} :
    calls.foldl call server = Cells.modifyAll server ((calls.flatMap (·.diffs)).map (·.write)) := by
  induction calls generalizing server
  case nil             => rfl
  case cons c calls ih => rw [List.foldl_cons, ih, call, List.flatMap_cons, List.map_append, Cells.modifyAll_append]

-- What is delivered writes to each message what the ops do at the server.
theorem deliver_apply : server.deliver ops m = (server m).map (opWrites (fun _ => true) ops m).apply := by
  have writes : diffWrite ((ops.flatMap (·.calls)).flatMap (·.diffs)) m = opWrites (fun _ => true) ops m := by
    induction ops
    case nil => rfl
    case cons op ops ih =>
      rw [List.flatMap_cons, List.flatMap_append, OutboxOp.diffs_calls, opWrites, List.map_cons, List.prod_cons,
        ← opWrites, ← ih, diffWrite, List.filter_append, List.map_append, List.prod_append]
      rfl
  rw [← writes]
  exact mailbox_diffs foldl_call m

end Server

-- The ops of Clean Up and of Undo for the messages that share a change.
def batchesOf (diffs : List MessageDiff) (c : LabelChange) : List OutboxOp :=
  (chunks BATCH (membersOf diffs c)).map (.modifyLabels · c.1 c.2)

def Store.opsOf (s : Store) (diffs : List MessageDiff) (c : LabelChange) : List OutboxOp :=
  s.changeOps (membersOf diffs c) c.1 c.2

-- Ops give the server's messages the labels that diffs ask for. A message is named by the ops that
-- carry its own diff, and no others.
structure Delivers (diffs : List MessageDiff) (asked : MessageDiff → Set LabelId → Set LabelId)
    (carriers : LabelChange → List OutboxOp) (ops : List OutboxOp) : Prop where
  labels  : ∀ (server : Server), ∀ d ∈ diffs, server.deliver ops d.message = (server d.message).map (asked d)
  carried : ∀ d ∈ diffs, d.isEmpty = false →
    ops.filter (d.message ∈ ·.messageIds) = (carriers d.change).filter (d.message ∈ ·.messageIds) ∧
    ∃ op ∈ carriers d.change, d.message ∈ op.messageIds
  outside : ∀ m, (∀ d ∈ diffs, d.message ≠ m) → (∀ op ∈ ops, m ∉ op.messageIds) ∧
    ∀ server : Server, server.deliver ops m = server m
  limit   : ∀ op ∈ ops, ∀ call ∈ op.calls, call.ids.length ≤ MAX_BATCH_MODIFY

section Groups

variable {diffs : List MessageDiff} {s : Store} {m : MessageId} {c : LabelChange} {op : OutboxOp}

theorem isEmpty_change {d : MessageDiff} : d.isEmpty = false ↔ d.change ≠ ([], []) := by
  rw [← Bool.not_eq_true]
  simp [MessageDiff.isEmpty, MessageDiff.change]

theorem nodup_changesOf : (changesOf diffs).Nodup :=
  (List.perm_insertionSort _ _).nodup_iff.mpr (List.nodup_dedup _)

-- Of a list put together from parts, what only one part has.
theorem filter_flatMap_of_nodup {α : Type u} {β : Type v} {l : List α} {f : α → List β} {p : β → Bool} {a : α}
    (once : l.Nodup) (ha : a ∈ l) (others : ∀ b ∈ l, b ≠ a → ∀ x ∈ f b, ¬p x) : (l.flatMap f).filter p = (f a).filter p := by
  rw [List.filter_flatMap]
  induction l
  case nil => exact absurd ha List.not_mem_nil
  case cons b l ih =>
    have ⟨hb, once⟩ := List.nodup_cons.mp once
    have none : ∀ l' : List α, (∀ b ∈ l', b ≠ a ∧ ∀ x ∈ f b, ¬p x) → l'.flatMap (fun b => (f b).filter p) = [] :=
      fun l' h => List.flatMap_eq_nil_iff.mpr fun b hb => List.filter_eq_nil_iff.mpr (h b hb).right
    rw [List.flatMap_cons]
    rcases List.mem_cons.mp ha with rfl | ha
    · have rest : ∀ b ∈ l, b ≠ a := fun _ hb' he => hb (he ▸ hb')
      rw [none l fun b hb' => ⟨rest b hb', others b (List.mem_cons_of_mem _ hb') (rest b hb')⟩, List.append_nil]
    · have ne : b ≠ a := fun he => hb (he ▸ ha)
      rw [ih once ha fun b hb => others b (List.mem_cons_of_mem _ hb),
        List.filter_eq_nil_iff.mpr (others b List.mem_cons_self ne), List.nil_append]

theorem messageIds_of_mem_opsOf (h : op ∈ s.opsOf diffs c) : op.messageIds = membersOf diffs c := by
  obtain ⟨_, rfl⟩ | ⟨_, rfl⟩ | ⟨_, rfl⟩ := mem_changeOps.mp h <;> rfl

theorem messageIds_of_mem_batchesOf (h : op ∈ batchesOf diffs c) : ∀ m ∈ op.messageIds, m ∈ membersOf diffs c := by
  obtain ⟨chunk, hc, rfl⟩ := List.mem_map.mp h
  exact fun m hm => mem_chunks.mp ⟨chunk, hc, hm⟩

theorem opsOf_ne_nil (h : c ≠ ([], [])) : ∃ op, op ∈ s.opsOf diffs c := by
  by_cases hr : TRASH ∈ c.2
  case pos => exact ⟨_, mem_changeOps.mpr (.inl ⟨hr, rfl⟩)⟩
  case neg =>
    by_cases ha : TRASH ∈ c.1
    case pos => exact ⟨_, mem_changeOps.mpr (.inr (.inl ⟨ha, rfl⟩))⟩
    case neg =>
      refine ⟨_, mem_changeOps.mpr (.inr (.inr ⟨fun none => h ?_, rfl⟩))⟩
      have kept : c.2.filter (· ≠ TRASH) = c.2 :=
        List.filter_eq_self.mpr fun l hl => decide_eq_true fun he => hr (he ▸ hl)
      rw [restOf, if_neg ha, kept] at none
      exact Prod.ext none.left none.right

section Delivers

variable {carriers : LabelChange → List OutboxOp} {asked : MessageDiff → Set LabelId → Set LabelId}
variable (per : PerMessage diffs)
include per

-- Ops of the groups, each of which writes to its members, and only to them, what their diffs ask for.
theorem delivers_of_carriers (write : LabelChange → Overwrite LabelId)
    (names : ∀ c, ∀ op ∈ carriers c, ∀ m ∈ op.messageIds, m ∈ membersOf diffs c)
    (covers : ∀ c, c ≠ ([], []) → ∀ m ∈ membersOf diffs c, ∃ op ∈ carriers c, m ∈ op.messageIds)
    (writes : ∀ c m, opWrites (fun _ => true) (carriers c) m = if m ∈ membersOf diffs c then write c else 1)
    (asks : ∀ d ∈ diffs, asked d = (write d.change).apply) (nothing : write ([], []) = 1) :
    Delivers diffs asked carriers ((changesOf diffs).flatMap carriers) := by
  have total : ∀ m, opWrites (fun _ => true) ((changesOf diffs).flatMap carriers) m =
      ((changesOf diffs).map fun c => if Changes diffs m c then write c else 1).prod := by
    intro m
    rw [opWrites_flatMap]
    exact congrArg _ (List.map_congr_left fun c _ => (writes c m).trans (if_congr mem_group rfl rfl))
  refine ⟨fun server d hd => ?_, fun d hd some => ?_, fun m none => ⟨fun op hop hm => ?_, fun server => ?_⟩,
    fun _ _ _ => OutboxOp.length_ids_le⟩
  · rw [Server.deliver_apply, asks d hd, total]
    have alone : ∀ c, (if Changes diffs d.message c then write c else 1) =
        if c = d.change then write d.change else 1 := by
      intro c
      rw [if_congr (changes_iff per hd) rfl rfl]
      split
      case isTrue he => rw [he]
      case isFalse   => rfl
    simp only [alone, Overwrite.prod_ite, exists_eq_right, mem_changesOf]
    split
    case isTrue     => rfl
    case isFalse hc =>
      have empty : d.change = ([], []) := by_contra fun hne => hc ⟨hne, d, hd, rfl⟩
      rw [empty, nothing]
  · have some := isEmpty_change.mp some
    refine ⟨filter_flatMap_of_nodup nodup_changesOf (mem_changesOf.mpr ⟨some, d, hd, rfl⟩) ?_,
      covers _ some _ (mem_group.mpr ⟨d, hd, rfl, rfl⟩)⟩
    intro c _ ne op hop hm
    exact ne ((changes_iff per hd).mp (mem_group.mp (names c op hop _ (of_decide_eq_true hm))))
  · have ⟨c, _, hop⟩ := List.mem_flatMap.mp hop
    have ⟨d, hd, hdm, _⟩ := mem_group.mp (names c op hop m hm)
    exact none d hd hdm
  · have one : ∀ c, (if Changes diffs m c then write c else 1) = 1 :=
      fun c => if_neg fun ⟨d, hd, hdm, _⟩ => none d hd hdm
    rw [Server.deliver_apply, total]
    simp [one]

theorem batchedOps_deliver : Delivers diffs MessageDiff.asked (batchesOf diffs) (batchedOps diffs) := by
  have parts : batchedOps diffs = (changesOf diffs).flatMap (batchesOf diffs) := by
    rw [batchedOps, groupsOf, List.flatMap_map]
    rfl
  rw [parts]
  refine delivers_of_carriers per (fun c => .edit c.1 c.2) (fun _ _ => messageIds_of_mem_batchesOf) ?_
    (fun _ _ => opWrites_chunks) (fun _ _ => rfl) Overwrite.edit_nil
  intro c _ m hm
  obtain ⟨chunk, hc, hm⟩ := mem_chunks.mpr hm
  exact ⟨_, List.mem_map_of_mem hc, hm⟩

theorem providerOps_deliver : Delivers diffs MessageDiff.askedOfTrash (s.opsOf diffs) (s.providerOps diffs) := by
  have parts : s.providerOps diffs = (changesOf diffs).flatMap (s.opsOf diffs) := by
    rw [Store.providerOps, groupsOf, List.flatMap_map]
    rfl
  rw [parts]
  refine delivers_of_carriers per (fun c => .edit c.1 (besides true c.1 c.2))
    (fun _ _ hop _ hm => messageIds_of_mem_opsOf hop ▸ hm) ?_ (fun _ _ => opWrites_changeOps_besides fun _ _ => rfl)
    (fun _ _ => rfl) ?_
  · intro c some m hm
    obtain ⟨op, hop⟩ : ∃ op, op ∈ s.opsOf diffs c := opsOf_ne_nil some
    exact ⟨op, hop, messageIds_of_mem_opsOf hop ▸ hm⟩
  · rw [besides, if_neg fun h => List.not_mem_nil h.left, Overwrite.edit_nil]

end Delivers

-- The batches of a change name its messages, each as often as the diffs do.
theorem flatMap_messageIds_batchesOf : (batchesOf diffs c).flatMap (·.messageIds) = membersOf diffs c := by
  rw [batchesOf, List.flatMap_map]
  exact List.flatMap_id'.trans (flatten_chunks (by decide) _)

-- Whether in batches or through the trash endpoints, the ops made of diffs give the server's messages
-- what the diffs ask for, and trashing takes a message out of the Inbox as well.
theorem ops_deliver (per : PerMessage diffs) (s : Store) :
    Delivers diffs MessageDiff.asked (batchesOf diffs) (batchedOps diffs) ∧
    (∀ op ∈ batchedOps diffs, op.messageIds.length ≤ BATCH) ∧
    (∀ c, (batchesOf diffs c).flatMap (·.messageIds) = membersOf diffs c) ∧
    Delivers diffs MessageDiff.askedOfTrash (s.opsOf diffs) (s.providerOps diffs) := by
  refine ⟨batchedOps_deliver per, fun op hop => ?_, fun _ => flatMap_messageIds_batchesOf, providerOps_deliver per⟩
  obtain ⟨_, _, chunk, hc, rfl⟩ := mem_batchedOps.mp hop
  exact OutboxOp.length_of_mem_chunks hc

end Groups

-- One message is archived, the other put in Trash.
def archivedAndTrashed : List MessageDiff :=
  [⟨"m1", [], [INBOX]⟩, ⟨"m2", [TRASH], [INBOX]⟩]

theorem ops_deliver_archived : PerMessage archivedAndTrashed ∧
    Delivers archivedAndTrashed MessageDiff.askedOfTrash (Store.init.opsOf archivedAndTrashed)
      (Store.init.providerOps archivedAndTrashed) :=
  have per : PerMessage archivedAndTrashed := perMessage_of_nodup (by decide)
  ⟨per, (ops_deliver per .init).right.right.right⟩

-- A diff that puts a message in Trash and leaves it in the Inbox is delivered as one that takes it out.
theorem trash_takes_out_of_inbox :
    PerMessage [⟨"m1", [TRASH], []⟩] ∧
    Server.deliver (fun _ => some {INBOX}) (Store.init.providerOps [⟨"m1", [TRASH], []⟩]) "m1" ≠
      some (MessageDiff.asked ⟨"m1", [TRASH], []⟩ {INBOX}) := by
  have per : PerMessage [⟨"m1", [TRASH], []⟩] := perMessage_of_nodup (by decide)
  refine ⟨per, fun same => ?_⟩
  have delivered := (providerOps_deliver (s := .init) per).labels (fun _ => some {INBOX}) _ List.mem_cons_self
  rw [same, Option.map_some, Option.some_inj] at delivered
  have kept : INBOX ∈ MessageDiff.asked ⟨"m1", [TRASH], []⟩ {INBOX} := by
    simp [MessageDiff.asked]
  rw [delivered] at kept
  have ne : INBOX ≠ TRASH := by decide
  simp [MessageDiff.askedOfTrash, besides, ne] at kept

end Kaluta
