import Kaluta.Sync.Performed

namespace Kaluta

open SystemLabels

def KIND_PREFIX : String := "cleanup_"

-- A bulk action is undone in batches, as it was applied.
def isCleanupAction (kind : String) : Bool :=
  kind.startsWith KIND_PREFIX

def UndoAction.toReplay (action : UndoAction) (inverse : Bool) : List MessageDiff :=
  if inverse then action.diffs.map (·.inverse) else action.diffs

namespace Db

-- Applies a recorded action's diffs, or their inverse.
def replay (db : Db) (id : Rowid) (inverse queue : Bool) (now : Millis) : StoreResult Db :=
  match db.undoActions.find? id with
  | none        => .error (.notFound "that action can no longer be undone")
  | some action => do
    let change := .exact (action.toReplay inverse) (isCleanupAction action.kind)
    let (db, _) ← db.applyLocalChangeRecorded change queue none now
    return db

-- Undo, Redo, Undo and so on, one after another.
def alternate (db : Db) (id : Rowid) (queue : Bool) (now : Nat → Millis) : Nat → StoreResult Db
  | 0     => .ok db
  | n + 1 => do
    let db ← db.alternate id queue now n
    db.replay id (n % 2 = 0) queue (now n)

end Db

-- A change that Undo takes back and Redo makes again.
--  * A label change must not name a label both to add and to remove that a message it is meant for has:
--    the label stays, and yet is recorded as removed.
--  * Exact diffs must take and give just what the messages have and lack.
def LocalChange.Retraced (s : Store) : LocalChange → Prop
  | labels threadIds add remove => ∀ m before, s.mailbox m = some before →
      Selects s.threadOf threadIds m → ∀ l ∈ add, l ∈ remove → l ∉ before
  | trash _ => True
  | exact diffs _ => ∀ m before, s.mailbox m = some before →
      (∀ d ∈ diffs, d.message = m → ARCHIVE_LABEL ∉ d.removed) ∧
      (diffWrite (diffs.map (·.inverse)) m).Agrees before
  | cleanup .. => True

namespace MailWriter

variable {w : MailWriter} {diffs : List MessageDiff}

theorem map_fst_applyExact : (w.applyExact diffs).map Prod.fst = w.modifyEach diffs := by
  suffices ∀ acc : List MessageDiff, (diffs.foldlM (fun (p : MailWriter × List MessageDiff) (d : MessageDiff) => do
      let r ← p.1.modifyMessageLabels d.message d.added d.removed
      return (r.1, if r.2 then p.2 ++ [d] else p.2)) (w, acc)).map Prod.fst = w.modifyEach diffs from this []
  induction diffs generalizing w
  case nil => exact fun _ => rfl
  case cons d diffs ih =>
    intro acc
    rw [modifyEach, List.foldlM_cons, List.foldlM_cons]
    dsimp only
    cases w.modifyMessageLabels d.message d.added d.removed
    case error  => rfl
    case ok res => exact ih _

theorem Ready.applyExact_ok (h : w.Ready) : (∃ res, w.applyExact diffs = .ok res) ↔
    ∀ d ∈ diffs, ARCHIVE_LABEL ∈ d.added → w.tx.mailbox d.message = none := by
  rw [← h.modifyEach_ok, ← map_fst_applyExact]
  constructor
  · rintro ⟨res, hs⟩
    exact ⟨res.1, by rw [hs]; rfl⟩
  · rintro ⟨w', hs⟩
    have ⟨res, hs, _⟩ := Except.map_eq_ok.mp hs
    exact ⟨res, hs⟩

end MailWriter

namespace LocalChange

variable {s : Store} {diffs : List MessageDiff}

theorem exact_ok (h : s.Ready) (batched : Bool) : (∃ a, (exact diffs batched).applyTo s = .ok a) ↔
    ∀ d ∈ diffs, ARCHIVE_LABEL ∈ d.added → s.mailbox d.message = none := by
  have start := MailWriter.ready_start h
  rw [← start.applyExact_ok]
  constructor
  · rintro ⟨a, hs⟩
    have ⟨res, hw, _⟩ := Except.bind_eq_ok.mp hs
    exact ⟨res, hw⟩
  · rintro ⟨⟨w, applied⟩, hw⟩
    have ⟨writes, _⟩ := start.applyExact hw
    obtain ⟨_, _, hf, _⟩ := writes.ready.finish
    exact ⟨_, Except.bind_eq_ok.mpr ⟨_, hw, Except.bind_eq_ok.mpr ⟨_, hf, rfl⟩⟩⟩

end LocalChange

namespace Db

variable {db db₁ : Db} {change : LocalChange} {record : Option String} {now : Millis} {queue : Bool}

theorem enqueueAll_eq (ops : List OutboxOp) (db : Db) :
    (ops.foldl (·.enqueue · now) db).mail = db.mail ∧
      (ops.foldl (·.enqueue · now) db).undoActions = db.undoActions := by
  induction ops generalizing db
  case nil            => exact ⟨rfl, rfl⟩
  case cons op ops ih => exact ih (db.enqueue op now)

-- What is applied without being recorded leaves the recorded actions as they are.
theorem applyUnrecorded (hs : db.applyLocalChangeRecorded change queue none now = .ok (db₁, applied)) :
    ∃ a, change.applyTo db.mail = .ok a ∧ db₁.mail = a.mail ∧ db₁.undoActions = db.undoActions := by
  have ⟨a, ha, hs⟩ := Except.bind_eq_ok.mp hs
  cases Except.pure_eq_ok.mp hs
  refine ⟨a, ha, ?_⟩
  split
  · exact enqueueAll_eq a.ops { db with mail := a.mail }
  · exact ⟨rfl, rfl⟩

theorem applyUnrecorded_ok (ha : change.applyTo db.mail = .ok a) (queue : Bool) (now : Millis) :
    ∃ res, db.applyLocalChangeRecorded change queue none now = .ok res :=
  ⟨_, Except.bind_eq_ok.mpr ⟨a, ha, rfl⟩⟩

theorem find?_record (db : Db) (kind : String) (diffs : List MessageDiff) :
    (db.record kind diffs).1.undoActions.find? (db.record kind diffs).2 =
      some ⟨(db.record kind diffs).2, kind, diffs⟩ := by
  refine Table.find?_eq_some_iff.mpr ⟨Table.mem_delete.mpr ⟨Table.mem_insertRow.mpr (.inr rfl), ?_⟩, rfl⟩
  have pos : 0 < db.undoActions.nextRowid := Nat.succ_pos _
  exact decide_eq_false (Nat.not_le.mpr (Nat.sub_lt pos (by decide)))

theorem applyRecorded {id : Rowid}
    (hs : db.applyLocalChangeRecorded change queue (some kind) now = .ok (db₁, applied))
    (hid : applied.action = some id) :
    ∃ a, change.applyTo db.mail = .ok a ∧ db₁.mail = a.mail ∧
      db₁.undoActions.find? id = some ⟨id, kind, a.diffs⟩ := by
  obtain ⟨a, ha, hs⟩ := Except.bind_eq_ok.mp hs
  refine ⟨a, ha, ?_⟩
  dsimp only at hs
  split at hs
  case isTrue =>
    cases Except.pure_eq_ok.mp hs
    cases hid
    refine ⟨?_, find?_record _ _ _⟩
    rw [record]
    split
    · exact (enqueueAll_eq a.ops { db with mail := a.mail }).left
    · rfl
  case isFalse =>
    cases Except.pure_eq_ok.mp hs
    cases hid

section Replay

variable {id : Rowid} {action : UndoAction} {inverse : Bool}
variable (h : db.mail.Ready) (hf : db.undoActions.find? id = some action)
include h hf

theorem replay_ok : (∃ db', db.replay id inverse queue now = .ok db') ↔
    ∀ d ∈ action.toReplay inverse, ARCHIVE_LABEL ∈ d.added → db.mail.mailbox d.message = none := by
  rw [← LocalChange.exact_ok h (isCleanupAction action.kind), replay, hf]
  constructor
  · rintro ⟨_, hs⟩
    have ⟨_, hs, _⟩ := Except.bind_eq_ok.mp hs
    have ⟨a, ha, _⟩ := applyUnrecorded hs
    exact ⟨a, ha⟩
  · rintro ⟨a, ha⟩
    have ⟨res, hs⟩ := applyUnrecorded_ok ha queue now
    exact ⟨res.1, Except.bind_eq_ok.mpr ⟨res, hs, rfl⟩⟩

theorem replay_spec {db' : Db} (hs : db.replay id inverse queue now = .ok db') :
    db'.mail.Ready ∧ db'.undoActions = db.undoActions ∧
    ∀ m, db'.mail.mailbox m = (db.mail.mailbox m).map (diffWrite (action.toReplay inverse) m).apply := by
  rw [replay, hf] at hs
  have ⟨⟨_, _⟩, hr, hs⟩ := Except.bind_eq_ok.mp hs
  cases Except.pure_eq_ok.mp hs
  have ⟨a, ha, mail, actions⟩ := applyUnrecorded hr
  have ⟨effect, _⟩ := LocalChange.exact_effect h ha
  exact ⟨mail ▸ effect.ready, actions, fun m => mail ▸ effect.after m⟩

end Replay
end Db

-- Undoing leads from the labels after a change to those before it, and redoing leads back.
structure Swings (before after : MessageId → Option (Set LabelId)) (undo redo : List MessageDiff) : Prop where
  undoable : ∀ d ∈ undo, ARCHIVE_LABEL ∈ d.added → after d.message = none
  redoable : ∀ d ∈ redo, ARCHIVE_LABEL ∈ d.added → before d.message = none
  undone   : ∀ m, (after m).map (diffWrite undo m).apply = before m
  redone   : ∀ m, (before m).map (diffWrite redo m).apply = after m

namespace Db

variable {db : Db} {id : Rowid} {action : UndoAction} {queue : Bool} {now : Nat → Millis}
variable {before : MessageId → Option (Set LabelId)}

-- Undo and Redo alternate without drift as soon as the first two of them are exact.
theorem alternate_iff (h : db.mail.Ready) (hf : db.undoActions.find? id = some action) :
    (∀ n, ∃ db', db.alternate id queue now n = .ok db' ∧
      db'.mail.mailbox = if n % 2 = 0 then db.mail.mailbox else before) ↔
    Swings before db.mail.mailbox (action.toReplay true) (action.toReplay false) := by
  constructor
  · intro all
    have ⟨db₁, h₁, undone⟩ := all 1
    have ⟨db₂, h₂, redone⟩ := all 2
    have once : db.replay id true queue (now 0) = .ok db₁ := h₁
    have twice : db₁.replay id false queue (now 1) = .ok db₂ := by
      have ⟨db₁', h₁', h₂⟩ := Except.bind_eq_ok.mp h₂
      cases h₁.symm.trans h₁'
      exact h₂
    have ⟨ready, actions, mail₁⟩ := replay_spec h hf once
    have hf₁ : db₁.undoActions.find? id = some action := by rw [actions, hf]
    have ⟨_, _, mail₂⟩ := replay_spec ready hf₁ twice
    have undone : db₁.mail.mailbox = before := undone
    have redone : db₂.mail.mailbox = db.mail.mailbox := redone
    refine ⟨(replay_ok h hf).mp ⟨_, once⟩, undone ▸ (replay_ok ready hf₁).mp ⟨_, twice⟩, fun m => ?_, fun m => ?_⟩
    · rw [← undone, mail₁]
    · rw [← undone, ← redone, mail₂]
  · intro swings n
    suffices ∃ db', db.alternate id queue now n = .ok db' ∧ db'.mail.Ready ∧ db'.undoActions = db.undoActions ∧
        db'.mail.mailbox = if n % 2 = 0 then db.mail.mailbox else before from
      have ⟨db', hs, _, _, mail⟩ := this
      ⟨db', hs, mail⟩
    induction n
    case zero => exact ⟨db, rfl, h, rfl, rfl⟩
    case succ n ih =>
      obtain ⟨db', hs, ready, actions, mail⟩ := ih
      have hf' : db'.undoActions.find? id = some action := by rw [actions, hf]
      have next {db'' : Db} : db'.replay id (n % 2 = 0) queue (now n) = .ok db'' →
          db.alternate id queue now (n + 1) = .ok db'' := fun hr => Except.bind_eq_ok.mpr ⟨db', hs, hr⟩
      obtain even | odd := Nat.mod_two_eq_zero_or_one n
      · rw [if_pos even] at mail
        rw [decide_eq_true even] at next
        have ⟨db'', hr⟩ : ∃ db'', db'.replay id true queue (now n) = .ok db'' :=
          (replay_ok ready hf').mpr (mail ▸ swings.undoable)
        have ⟨ready', actions', mail'⟩ := replay_spec ready hf' hr
        refine ⟨db'', next hr, ready', actions'.trans actions, funext fun m => ?_⟩
        rw [mail', mail, swings.undone, if_neg (by omega)]
      · rw [if_neg (by omega)] at mail
        rw [decide_eq_false (by omega)] at next
        have ⟨db'', hr⟩ : ∃ db'', db'.replay id false queue (now n) = .ok db'' :=
          (replay_ok ready hf').mpr (mail ▸ swings.redoable)
        have ⟨ready', actions', mail'⟩ := replay_spec ready hf' hr
        refine ⟨db'', next hr, ready', actions'.trans actions, funext fun m => ?_⟩
        rw [mail', mail, swings.redone, if_pos (by omega)]

end Db

-- What was recorded of a change, and what the change did to a message.
structure Recorded (diffs : List MessageDiff) (m : MessageId) (before after : Set LabelId) : Prop where
  fresh   : ∀ d ∈ diffs, d.message = m → d.Fresh before
  added   : ∀ d ∈ diffs, d.message = m → ∀ l ∈ d.added, l ∈ after
  unnamed : ∀ l, diffWrite diffs m l = none → (l ∈ after ↔ l ∈ before)

section Recorded

variable {diffs : List MessageDiff} {m : MessageId} {before after : Set LabelId}

theorem diffWrite_eq_some (h : diffWrite diffs m l = some b) :
    ∃ d ∈ diffs, d.message = m ∧ Overwrite.edit d.added d.removed l = some b := by
  have ⟨o, ho, hl⟩ := Overwrite.exists_of_prod_eq_some h
  obtain ⟨d, hd, rfl⟩ := List.mem_map.mp ho
  have ⟨hd, hm⟩ := List.mem_filter.mp hd
  exact ⟨d, hd, of_decide_eq_true hm, hl⟩

theorem diffWrite_inverse_eq_none : diffWrite (diffs.map (·.inverse)) m l = none ↔ diffWrite diffs m l = none := by
  rw [diffWrite_eq_none, diffWrite_eq_none, List.forall_mem_map]
  exact forall₂_congr fun d _ => imp_congr Iff.rfl and_comm

theorem agrees_inverse (fresh : ∀ d ∈ diffs, d.message = m → d.Fresh before) :
    (diffWrite (diffs.map (·.inverse)) m).Agrees before := by
  refine Overwrite.agrees_prod fun o ho => ?_
  obtain ⟨d, hd, rfl⟩ := List.mem_map.mp ho
  have ⟨named, hm⟩ := List.mem_filter.mp hd
  obtain ⟨d', hd', rfl⟩ := List.mem_map.mp named
  exact (fresh d' hd' (of_decide_eq_true hm)).agrees_undo

-- What was recorded takes a change back, whatever else the change named.
theorem Recorded.undone (h : Recorded diffs m before after) :
    (diffWrite (diffs.map (·.inverse)) m).apply after = before :=
  Overwrite.apply_eq_iff.mpr ⟨agrees_inverse h.fresh, fun l hn => h.unnamed l (diffWrite_inverse_eq_none.mp hn)⟩

end Recorded

namespace LocalChange

variable {s : Store} {a : Applied} {diffs : List MessageDiff} {threadIds : List ThreadId}
variable {add remove add' remove' : List LabelId}

-- Undo is exact on all that was recorded so, and Redo where it makes the same change.
theorem swings_iff (h : s.Ready) (effect : a.Effect s diffs)
    (recorded : ∀ m before after, s.mailbox m = some before → a.mail.mailbox m = some after →
      Recorded a.diffs m before after) :
    Swings s.mailbox a.mail.mailbox (a.diffs.map (·.inverse)) a.diffs ↔
    ∀ m before after, s.mailbox m = some before → a.mail.mailbox m = some after →
      (diffWrite a.diffs m).apply before = after := by
  have stored : ∀ m, a.mail.mailbox m = none ↔ s.mailbox m = none := fun m => by
    rw [effect.after, Option.map_eq_none_iff]
  have both : ∀ m, s.mailbox m ≠ none → ∃ before after, s.mailbox m = some before ∧ a.mail.mailbox m = some after := by
    intro m hm
    have ⟨before, hb⟩ := Option.ne_none_iff_exists'.mp hm
    have ⟨after, ha⟩ := Option.ne_none_iff_exists'.mp (mt (stored m).mp hm)
    exact ⟨before, after, hb, ha⟩
  constructor
  · intro swings m before after hb ha
    have redone := swings.redone m
    rwa [hb, ha, Option.map_some, Option.some_inj] at redone
  · intro redone
    refine ⟨fun d hd archive => ?_, fun d hd archive => ?_, fun m => ?_, fun m => ?_⟩
    · obtain ⟨d', hd', rfl⟩ := List.mem_map.mp hd
      by_contra hm
      have ⟨before, after, hb, ha⟩ := both d'.message (mt (stored d'.message).mpr hm)
      exact h.not_mem_archive hb (((recorded _ _ _ hb ha).fresh d' hd' rfl).right _ archive)
    · by_contra hm
      have ⟨before, after, hb, ha⟩ := both d.message hm
      exact effect.ready.not_mem_archive ha ((recorded _ _ _ hb ha).added d hd rfl _ archive)
    · cases hb : s.mailbox m
      case none => rw [(stored m).mpr hb]; rfl
      case some =>
        have ⟨before, after, hb, ha⟩ := both m (by rw [hb]; nofun)
        rw [ha, Option.map_some, (recorded m before after hb ha).undone, ← hb]
        assumption
    · cases hb : s.mailbox m
      case none => rw [(stored m).mpr hb]; rfl
      case some =>
        have ⟨before, after, hb', ha⟩ := both m (by rw [hb]; nofun)
        rw [← hb, hb', ha, Option.map_some, redone m before after hb' ha]

-- A change of the same labels on all messages it alters.
theorem affected_swings_iff (h : s.Ready)
    (effect : a.Effect s ((s.affectedMessages threadIds add' remove').map (⟨·.1, add, remove⟩)))
    (hd : a.diffs = (s.affectedMessages threadIds add' remove').map fun (m, before) =>
      .diffFor m before add remove) :
    Swings s.mailbox a.mail.mailbox (a.diffs.map (·.inverse)) a.diffs ↔
    ∀ m before, s.mailbox m = some before → m ∈ s.affectedIds threadIds add' remove' →
      ∀ l ∈ add, l ∈ remove → l ∉ before := by
  let ids := s.affectedIds threadIds add' remove'
  have part : a.diffs = ids.map fun m => .diffFor m (s.currentLabels m) add remove := by
    have named : ids.map (fun m => MessageDiff.diffFor m (s.currentLabels m) add remove) =
        (s.affectedMessages threadIds add' remove').map fun p => MessageDiff.diffFor p.1 (s.currentLabels p.1) add remove :=
      List.map_map
    rw [hd, named]
    exact List.map_congr_left fun p hp => by rw [← Store.affected_before h.consistent.wf hp]
  have after_eq : ∀ m before after, s.mailbox m = some before → a.mail.mailbox m = some after →
      after = (if m ∈ ids then Overwrite.edit add remove else 1).apply before := by
    intro m before after hb ha
    rw [effect.after, hb, diffWrite_affectedIds, Option.map_some, Option.some_inj] at ha
    exact ha.symm
  have write : ∀ m, diffWrite a.diffs m = if m ∈ ids then
      .edit (add.filter (· ∉ s.currentLabels m)) (remove.filter (· ∈ s.currentLabels m)) else 1 :=
    fun m => part ▸ diffWrite_map
  refine (swings_iff h effect fun m before after hb ha => ?_).trans ?_
  · have current : ∀ l, l ∈ s.currentLabels m ↔ l ∈ before := fun _ => Store.mem_currentLabels hb
    have named : ∀ d ∈ a.diffs, d.message = m → m ∈ ids ∧ d = .diffFor m (s.currentLabels m) add remove := by
      rw [part]
      rintro d hd rfl
      obtain ⟨m, hm, rfl⟩ := List.mem_map.mp hd
      exact ⟨hm, rfl⟩
    rw [after_eq m before after hb ha]
    refine ⟨fun d hd hm => ?_, fun d hd hm l hl => ?_, fun l hn => ?_⟩
    · obtain ⟨_, rfl⟩ := named d hd hm
      simp [MessageDiff.Fresh, MessageDiff.diffFor, current]
    · obtain ⟨hids, rfl⟩ := named d hd hm
      rw [if_pos hids, Overwrite.mem_apply_edit]
      exact .inr (List.mem_filter.mp hl).left
    · rw [write] at hn
      split
      case isFalse => rw [Overwrite.apply_one]; rfl
      case isTrue hids =>
        rw [if_pos hids, Overwrite.edit_eq_none] at hn
        simp only [List.mem_filter, decide_eq_true_eq, current] at hn
        rw [Overwrite.mem_apply_edit]
        tauto
  · constructor
    · intro redone m before hb hids l hadd hremove hl
      have current : ∀ l, l ∈ s.currentLabels m ↔ l ∈ before := fun _ => Store.mem_currentLabels hb
      obtain ⟨after, ha⟩ : ∃ after, a.mail.mailbox m = some after := ⟨_, by rw [effect.after, hb, Option.map_some]⟩
      have same := redone m before after hb ha
      rw [after_eq m before after hb ha, write, if_pos hids, if_pos hids] at same
      have kept : l ∈ (Overwrite.edit add remove).apply before := Overwrite.mem_apply_edit.mpr (.inr hadd)
      rw [← same, Overwrite.mem_apply_edit] at kept
      simp only [List.mem_filter, decide_eq_true_eq, current] at kept
      tauto
    · intro disjoint m before after hb ha
      have current : ∀ l, l ∈ s.currentLabels m ↔ l ∈ before := fun _ => Store.mem_currentLabels hb
      rw [after_eq m before after hb ha, write]
      split
      case isFalse => rfl
      case isTrue hids =>
        ext l
        have := disjoint m before hb hids l
        simp only [Overwrite.mem_apply_edit, List.mem_filter, decide_eq_true_eq, current]
        tauto

theorem labels_swings_iff (h : s.Ready) (hs : (labels threadIds add remove).applyTo s = .ok a) :
    Swings s.mailbox a.mail.mailbox (a.diffs.map (·.inverse)) a.diffs ↔ (labels threadIds add remove).Retraced s := by
  have ⟨effect, _⟩ := labels_effect h hs
  have ⟨w, hw, hs⟩ := Except.bind_eq_ok.mp hs
  have ⟨_, hf, hs⟩ := Except.bind_eq_ok.mp hs
  cases Except.pure_eq_ok.mp hs
  refine (affected_swings_iff h effect rfl).trans ?_
  refine forall₃_congr fun m before hb => ?_
  rw [Store.mem_affectedIds h.consistent.wf hb]
  constructor
  · intro disjoint selected l hadd hremove hl
    exact disjoint ⟨selected, .inr ⟨l, hremove, hl⟩⟩ l hadd hremove hl
  · exact fun disjoint altered => disjoint altered.left

theorem trash_swings (h : s.Ready) (hs : (trash threadIds).applyTo s = .ok a) :
    Swings s.mailbox a.mail.mailbox (a.diffs.map (·.inverse)) a.diffs := by
  have ⟨effect, _⟩ := trash_effect h hs
  have ⟨w, hw, hs⟩ := Except.bind_eq_ok.mp hs
  have ⟨_, hf, hs⟩ := Except.bind_eq_ok.mp hs
  cases Except.pure_eq_ok.mp hs
  refine (affected_swings_iff h effect rfl).mpr fun m before _ _ l hadd hremove _ => ?_
  exact absurd ((List.mem_singleton.mp hadd).symm.trans (List.mem_singleton.mp hremove)) (by decide)

theorem cleanup_swings (h : s.Ready) (hs : (cleanup messages add remove).applyTo s = .ok a) :
    Swings s.mailbox a.mail.mailbox (a.diffs.map (·.inverse)) a.diffs := by
  have ⟨effect, _⟩ := cleanup_effect h hs
  have ⟨⟨w, diffs⟩, hw, hs⟩ := Except.bind_eq_ok.mp hs
  have ⟨⟨mail, _⟩, hf, hs⟩ := Except.bind_eq_ok.mp hs
  cases Except.pure_eq_ok.mp hs
  have ⟨_, cleaned⟩ := (MailWriter.ready_start h).applyCleanup hw
  have after_eq : ∀ m before after, s.mailbox m = some before → mail.mailbox m = some after →
      after = (diffWrite diffs m).apply before := by
    intro m before after hb ha
    have ha : mail.mailbox m = some after := ha
    rw [effect.after, hb, Option.map_some, Option.some_inj] at ha
    exact ha.symm
  refine (swings_iff h effect fun m before after hb ha => ?_).mpr fun m before after hb ha =>
    (after_eq m before after hb ha).symm
  have fresh : ∀ d ∈ diffs, d.message = m → d.Fresh before :=
    fun d hd hm => ((cleaned m before hb).right d hd hm).left
  refine ⟨fresh, fun d hd hm l hl => ?_, fun l hn => ?_⟩
  · rw [after_eq m before after hb ha]
    cases write : diffWrite diffs m l
    case none => exact absurd hl (diffWrite_eq_none.mp write d hd hm).left
    case some b =>
      have ⟨d', hd', hm', hw⟩ := diffWrite_eq_some write
      rw [Overwrite.mem_apply_some write]
      by_contra out
      rw [Bool.not_eq_true] at out
      have removed : l ∈ d'.removed := Overwrite.mem_of_edit_eq_false (out ▸ hw)
      exact (fresh d hd hm).left l hl ((fresh d' hd' hm').right l removed)
  · rw [after_eq m before after hb ha]
    exact Overwrite.mem_apply_none hn

theorem exact_swings_iff (h : s.Ready) (hs : (exact diffs batched).applyTo s = .ok a) :
    Swings s.mailbox a.mail.mailbox (a.diffs.map (·.inverse)) a.diffs ↔ (exact diffs batched).Retraced s := by
  obtain ⟨effect, _⟩ := exact_effect h hs
  have added := (exact_ok h batched).mp ⟨a, hs⟩
  obtain ⟨⟨w, applied⟩, hw, hs⟩ := Except.bind_eq_ok.mp hs
  obtain ⟨⟨mail, _⟩, hf, hs⟩ := Except.bind_eq_ok.mp hs
  cases Except.pure_eq_ok.mp hs
  obtain ⟨_, happlied⟩ := (MailWriter.ready_start h).applyExact hw
  have happlied : applied = diffs.filter fun d => (s.mailbox d.message).isSome := happlied
  have stored : ∀ m, mail.mailbox m = none ↔ s.mailbox m = none := fun m => by
    have after : mail.mailbox m = _ := effect.after m
    rw [after, Option.map_eq_none_iff]
  have named : ∀ m before, s.mailbox m = some before →
      applied.filter (·.message = m) = diffs.filter (·.message = m) := by
    intro m before hb
    rw [happlied, List.filter_filter]
    refine List.filter_congr fun d _ => Bool.eq_iff_iff.mpr ?_
    simp only [Bool.and_eq_true, decide_eq_true_eq, and_iff_left_iff_imp]
    rintro rfl
    rw [hb]
    rfl
  have redo : ∀ m before, s.mailbox m = some before → diffWrite applied m = diffWrite diffs m :=
    fun m before hb => by rw [diffWrite, named m before hb, ← diffWrite]
  have undo : ∀ m before, s.mailbox m = some before →
      diffWrite (applied.map (·.inverse)) m = diffWrite (diffs.map (·.inverse)) m := by
    intro m before hb
    rw [diffWrite, List.filter_map, diffWrite, List.filter_map]
    have part : applied.filter ((fun d => decide (d.message = m)) ∘ (·.inverse)) = applied.filter (·.message = m) := rfl
    have part' : diffs.filter ((fun d => decide (d.message = m)) ∘ (·.inverse)) = diffs.filter (·.message = m) := rfl
    rw [part, part', named m before hb]
  have undone_iff : ∀ m before, s.mailbox m = some before →
      ((mail.mailbox m).map (diffWrite (applied.map (·.inverse)) m).apply = s.mailbox m ↔
        (diffWrite (diffs.map (·.inverse)) m).Agrees before) := by
    intro m before hb
    have after : mail.mailbox m = _ := effect.after m
    rw [after, hb, Option.map_some, Option.map_some, Option.some_inj, undo m before hb]
    exact Overwrite.apply_apply_eq_self fun l => diffWrite_inverse_eq_none.mp
  constructor
  · intro swings m before hb
    refine ⟨fun d hd hm archive => ?_, (undone_iff m before hb).mp (swings.undone m)⟩
    have mem : d ∈ applied := happlied ▸ List.mem_filter.mpr ⟨hd, by rw [hm, hb]; rfl⟩
    have none := swings.undoable _ (List.mem_map_of_mem mem) archive
    cases (hm ▸ (stored d.message).mp none).symm.trans hb
  · intro retraced
    refine ⟨fun d hd archive => ?_, fun d hd archive => ?_, fun m => ?_, fun m => ?_⟩
    · obtain ⟨d', hd', rfl⟩ := List.mem_map.mp hd
      have hd' : d' ∈ diffs := (List.mem_filter.mp (happlied ▸ hd')).left
      by_contra hm
      obtain ⟨before, hb⟩ := Option.ne_none_iff_exists'.mp (mt (stored d'.message).mpr hm)
      exact (retraced _ before hb).left d' hd' rfl archive
    · exact added d (List.mem_filter.mp (happlied ▸ hd)).left archive
    · cases hb : s.mailbox m
      case none        => rw [(stored m).mpr hb]; rfl
      case some before => rw [(undone_iff m before hb).mpr (retraced m before hb).right, hb]
    · have after : mail.mailbox m = _ := effect.after m
      rw [after]
      exact Option.map_congr fun before hb => by rw [redo m before hb]

theorem applyTo_swings_iff {change : LocalChange} (h : s.Ready) (hs : change.applyTo s = .ok a) :
    Swings s.mailbox a.mail.mailbox (a.diffs.map (·.inverse)) a.diffs ↔ change.Retraced s := by
  cases change
  case labels  => exact labels_swings_iff h hs
  case trash   => exact iff_of_true (trash_swings h hs) trivial
  case exact   => exact exact_swings_iff h hs
  case cleanup => exact iff_of_true (cleanup_swings h hs) trivial

end LocalChange

namespace Db

variable {db db₁ : Db} {change : LocalChange} {queue : Bool} {now : Nat → Millis} {id : Rowid}

-- Undo and Redo of a recorded change give every message the labels it had before it and after it, as
-- often as they alternate, exactly for the changes that retrace.
theorem alternate_exact_iff (h : db.mail.Ready)
    (hs : db.applyLocalChangeRecorded change queue (some kind) time = .ok (db₁, applied))
    (hid : applied.action = some id) :
    (∀ n, ∃ db', db₁.alternate id queue now n = .ok db' ∧
      db'.mail.mailbox = if n % 2 = 0 then db₁.mail.mailbox else db.mail.mailbox) ↔
    change.Retraced db.mail := by
  have ⟨a, ha, mail, hf⟩ := applyRecorded hs hid
  have ⟨_, effect⟩ := change.applyTo_effect h ha
  exact (alternate_iff (mail ▸ effect.ready) hf).trans (mail ▸ LocalChange.applyTo_swings_iff h ha)

theorem alternate_exact_markJunk : ∃ db₁ applied,
    archived.applyLocalChangeRecorded (.markJunk ["t1"]) true (some "junk") 0 = .ok (db₁, applied) ∧
    applied.action = some 1 ∧
    ((∀ n, ∃ db', db₁.alternate 1 true (fun _ => 0) n = .ok db' ∧
      db'.mail.mailbox = if n % 2 = 0 then db₁.mail.mailbox else archived.mail.mailbox) ↔
      (LocalChange.markJunk ["t1"]).Retraced archived.mail) := by
  have run : (archived.applyLocalChangeRecorded (.markJunk ["t1"]) true (some "junk") 0).map (·.2.action) =
      Except.ok (some 1) := by decide
  have ⟨⟨db₁, applied⟩, hs, hid⟩ := Except.map_eq_ok.mp run
  exact ⟨db₁, applied, hs, hid, alternate_exact_iff archived_ready hs hid⟩

-- A label named both to add and to remove stays on the message that has it, and Redo takes it off.
theorem redo_takes_label_off : ∃ db₁ applied,
    archived.applyLocalChangeRecorded (.labels ["t1"] ["STARRED"] ["STARRED"]) true (some "relabel") 0 =
      .ok (db₁, applied) ∧
    applied.action = some 1 ∧
    ¬∀ n, ∃ db', db₁.alternate 1 true (fun _ => 0) n = .ok db' ∧
      db'.mail.mailbox = if n % 2 = 0 then db₁.mail.mailbox else archived.mail.mailbox := by
  have run : (do
      let (db₁, applied) ← archived.applyLocalChangeRecorded (.labels ["t1"] ["STARRED"] ["STARRED"]) true
        (some "relabel") 0
      let db₂ ← db₁.alternate 1 true (fun _ => 0) 2
      return (applied.action, decide ("STARRED" ∈ db₁.mail.currentLabels "m1"),
        decide ("STARRED" ∈ db₂.mail.currentLabels "m1"), (db₁.mail.message? "m1").isSome)) =
      Except.ok (some 1, true, false, true) := by decide
  have ⟨⟨db₁, applied⟩, h₁, run⟩ := Except.bind_eq_ok.mp run
  have ⟨db₂, h₂, run⟩ := Except.bind_eq_ok.mp run
  have ⟨hid, had, has, stored⟩ : applied.action = some 1 ∧ "STARRED" ∈ db₁.mail.currentLabels "m1" ∧
      "STARRED" ∉ db₂.mail.currentLabels "m1" ∧ (db₁.mail.message? "m1").isSome := by
    simpa using Except.pure_eq_ok.mp run
  refine ⟨db₁, applied, h₁, hid, fun all => ?_⟩
  have ⟨db', h', same⟩ := all 2
  cases h₂.symm.trans h'
  have ⟨labels, hm⟩ : ∃ labels, db₁.mail.mailbox "m1" = some labels :=
    Option.ne_none_iff_exists'.mp (mt Store.mailbox_eq_none.mp (by simpa [Option.isSome_iff_ne_none] using stored))
  have same : db₂.mail.mailbox = db₁.mail.mailbox := same
  have kept := (Store.mem_currentLabels hm).mp had
  exact has ((Store.mem_currentLabels (same ▸ hm)).mpr kept)

end Db
end Kaluta
