import Kaluta.RoutineRuns.Runs
import Kaluta.RoutineRuns.Counts

-- The accounts of the runs are consistent, and when.
namespace Kaluta.RoutineRuns

-- Two counted labels are one label of one change.
def Counted.Same (x y : Counted) : Prop :=
  x.batch = y.batch ∧ x.change = y.change ∧ x.label = y.label

-- Two pieces of work are one label of one change of a batch.
def Attributed.same (a a' : Attributed) : Bool :=
  a.change = a'.change ∧ a.label = a'.label

namespace State

variable (s : State)

-- Each run's counts are the numbers of its threads in each bucket. Merging an inferred run into a cloud run loses no
-- thread of either, and changes no thread's bucket in the cloud run. No label change is counted in two runs that are
-- not undone.
structure Accounts : Prop where
  counts : ∀ r ∈ s.db.runs, ∀ bucket, r.count bucket = s.db.sorted r.id bucket
  merges : ∀ old ∈ s.db.runs, ∀ into ∈ s.db.runs, old.inferred = true → into.inferred = false →
    ∃ db, s.db.mergeRuns old.id into.id = some db ∧
      (∀ t ∈ s.db.threads, t.run = old.id → ∃ t' ∈ db.threads, t'.run = into.id ∧ t'.thread = t.thread) ∧
      ∀ t ∈ s.db.threads, t.run = into.id → t ∈ db.threads
  once   : ∀ x ∈ s.counted, ∀ y ∈ s.counted, x.Same y → ∀ r ∈ s.db.runs, ∀ r' ∈ s.db.runs, r.id = x.run →
    r'.id = y.run → r.undoneAt = none → r'.undoneAt = none → r.id = r'.id

-- Whether none of a routine's work is another's.
def apart (changes : List Change) (r r' : Routine) : Bool :=
  (attributed s.name changes r).all fun a => (attributed s.name changes r').all fun a' => !a.same a'

-- A turn puts no thread into a bucket and labels it again, and its run has no threads yet. No label change is the work
-- of two routines. What is merged is an inferred run.
def cond : Action → Bool
  | .turnEnded session _ _ actions _ => (s.sessions.find? session).all fun live =>
    LabelledOnce (labelled (s.routines.find? (·.id = live.routine)) actions) ∧
      ∀ t ∈ s.db.threads.rows, t.run ≠ live.run
  | .changed changes _               => (s.routines.filter (!·.isLocal)).Pairwise fun r r' => s.apart changes r r' = true
  | .fold refresh                    => (s.refreshes.find? refresh).all fun f =>
    match f.folding with
    | .merges (old :: _) => s.db.runs.rows.all fun r => r.id = old → r.inferred = true
    | _                  => true
  | _                                => true

structure Inv : Prop where
  right   : s.db.Right
  plain   : ∀ r ∈ s.db.runs, r.inferred = true → r.session = none
  single  : ∀ x ∈ s.counted, ∀ y ∈ s.counted, x.Same y → x.run = y.run
  seen    : ∀ x ∈ s.counted, x.batch < s.seen
  apart   : ∀ b ∈ s.batches, b.id < s.seen ∧ b.left.Pairwise fun r r' => s.apart b.changes r r' = true
  left    : ∀ b ∈ s.batches, ∀ r ∈ b.left, ∀ a ∈ s.work b r, ∀ x ∈ s.counted, x.batch = b.id →
    ¬(x.change = a.change ∧ x.label = a.label)
  cloud   : ∀ f ∈ s.refreshes, ∃ r ∈ s.db.runs, r.id = f.row ∧ r.inferred = false

variable {s} {s' t : State}

theorem Inv.accounts (h : s.Inv) : s.Accounts where
  counts := h.right.counts
  merges := by
    intro old hold into hinto inferred cloud
    have ne : old.id ≠ into.id := fun eq => by
      rw [s.db.runs.eq_of_key_eq hold hinto eq, cloud] at inferred
      cases inferred
    have there : s.db.hasRun into.id = true := Store.hasRun_iff.mpr ⟨into, hinto, rfl⟩
    have merged : ∃ db, s.db.mergeRuns old.id into.id = some db := by
      unfold Store.mergeRuns
      simp [there]
    obtain ⟨db, merged⟩ := merged
    exact ⟨db, merged, Store.mergeRuns_keeps ne merged⟩
  once   := by
    intro x hx y hy same r _ r' _ eq eq' _ _
    rw [eq, eq', h.single x hx y hy same]

-- What writes runs only.
theorem Inv.write (h : s.Inv) (right : t.db.Right) (extends_ : s.db.Extends t.db) (names : t.nameOf = s.nameOf)
    (batches : t.batches = s.batches) (seen : t.seen = s.seen) (counted : t.counted = s.counted)
    (refreshes : ∀ f ∈ t.refreshes, f.row ∈ s.refreshes.rows.map (·.row) ∨
      ∃ r ∈ t.db.runs, r.id = f.row ∧ r.inferred = false) : t.Inv where
  right  := right
  plain  := by
    intro r hr inferred
    rcases extends_.inferred r hr inferred with none_ | ⟨r', hr', inferred', e⟩
    · exact none_
    · exact e.symm.trans (h.plain r' hr' inferred')
  single := counted ▸ h.single
  seen   := by rw [counted, seen]; exact h.seen
  apart  := by
    have name : t.name = s.name := by funext label; rw [name, name, names]
    intro b hb
    obtain ⟨id, apart⟩ := h.apart b (batches ▸ hb)
    refine ⟨seen ▸ id, apart.imp fun {r r'} ok => ?_⟩
    rw [State.apart, name]
    exact ok
  left   := by
    have name : t.name = s.name := by funext label; rw [name, name, names]
    intro b hb r hr a ha x hx
    rw [work, name] at ha
    exact h.left b (batches ▸ hb) r hr a ha x (counted ▸ hx)
  cloud  := by
    intro f hf
    rcases refreshes f hf with old | new
    · obtain ⟨f', hf', eq⟩ := List.mem_map.mp old
      obtain ⟨r, hr, id, cloud⟩ := h.cloud f' hf'
      obtain ⟨r', hr', id', cloud⟩ := extends_.cloud r hr cloud
      exact ⟨r', hr', id'.trans (id.trans eq), cloud⟩
    · exact new

theorem kept_refreshes : ∀ f ∈ s.refreshes, f.row ∈ s.refreshes.rows.map (·.row) ∨
    ∃ r ∈ t.db.runs, r.id = f.row ∧ r.inferred = false :=
  fun f hf => .inl (List.mem_map.mpr ⟨f, hf, rfl⟩)

theorem Inv.turnEnded {session : String} {succeeded : Bool} {report : String} {actions : List AgentAction} {now : Millis}
    (h : s.Inv) (ok : s.cond (.turnEnded session succeeded report actions now) = true)
    (hs : s.step (.turnEnded session succeeded report actions now) = some s') : s'.Inv := by
  obtain ⟨live, found, hs⟩ := Option.bind_eq_some_iff.mp hs
  cases hs
  have ok : LabelledOnce (labelled (s.routines.find? (·.id = live.routine)) actions) ∧
      ∀ t ∈ s.db.threads, t.run ≠ live.run := by
    simpa [cond, found, Table.mem_rows] using ok
  have sorted := sortedBy_right ok.1
  cases added : s.db.addRunThreads live.run (sortedBy (s.routines.find? (·.id = live.routine)) actions).threads with
  | none    => exact h.write h.right .refl rfl rfl rfl rfl kept_refreshes
  | some db =>
    refine h.write (h.right.finishRun added sorted.nodup ok.2 sorted.counts) ?_ rfl rfl rfl rfl kept_refreshes
    exact (Store.Extends.refl.of_runs (Store.addRunThreads_runs added)).trans
      (Store.extends_updateRun fun _ => ⟨rfl, rfl⟩)

theorem Inv.changed {changes : List Change} {now : Millis} (h : s.Inv) (ok : s.cond (.changed changes now) = true)
    (hs : s.step (.changed changes now) = some s') : s'.Inv := by
  cases hs
  have batches : ∀ {b}, b ∈ s.batches.replace ⟨s.seen, changes, s.routines.filter (!·.isLocal), now⟩ → b ∈ s.batches ∨
      b = ⟨s.seen, changes, s.routines.filter (!·.isLocal), now⟩ := fun {_} hb => (Table.mem_replace.mp hb).imp_left And.left
  constructor
  case right  => exact h.right
  case plain  => exact h.plain
  case single => exact h.single
  case seen   => exact fun x hx => (h.seen x hx).trans (Nat.lt_succ_self _)
  case cloud  => exact h.cloud
  case apart  =>
    intro b hb
    rcases batches hb with hb | rfl
    · exact ⟨(h.apart b hb).1.trans (Nat.lt_succ_self _), (h.apart b hb).2⟩
    · exact ⟨Nat.lt_succ_self _, of_decide_eq_true ok⟩
  case left   =>
    intro b hb r hr a ha x hx eq
    rcases batches hb with hb | rfl
    · exact h.left b hb r hr a ha x hx eq
    · exact absurd eq (h.seen x hx).ne

-- A batch goes on to its next routine.
theorem Inv.next {b : Batch} {left : List Routine} (h : s.Inv) (mem : b ∈ s.batches) (part : left <:+ b.left) :
    Inv { s with batches := s.batches.replace { b with left } } where
  right  := h.right
  plain  := h.plain
  single := h.single
  seen   := h.seen
  cloud  := h.cloud
  apart  := by
    intro b' hb'
    rcases Table.mem_replace.mp hb' with ⟨hb', _⟩ | rfl
    · exact h.apart b' hb'
    · exact ⟨(h.apart b mem).1, (h.apart b mem).2.sublist part.sublist⟩
  left   := by
    intro b' hb' r hr
    rcases Table.mem_replace.mp hb' with ⟨hb', _⟩ | rfl
    · exact h.left b' hb' r hr
    · exact h.left b mem r (part.subset hr)

-- A routine's part of a batch.
theorem Inv.attributeTo {b : Batch} {r : Routine} {left : List Routine} (h : s.Inv) (mem : b ∈ s.batches)
    (here : b.left = r :: left) :
    Inv { s.attributeTo b r with batches := s.batches.replace { b with left } } := by
  have part : left <:+ b.left := here ▸ List.suffix_cons r left
  have next := h.next mem part
  unfold State.attributeTo
  dsimp only
  split
  case isTrue  => exact next
  case isFalse =>
    split
    case h_1 => exact next
    case h_2 db added =>
      have open_ := Store.Right.openInferredRun r.id b.now INFERRED_GAP h.right
      have extends_ : s.db.Extends
          (db.recount (s.db.openInferredRun r.id b.now INFERRED_GAP).2 (some b.now)) := (Store.extends_openInferredRun.trans
        (Store.Extends.refl.of_runs (Store.addRunThreads_runs added))).trans (Store.extends_updateRun fun _ => ⟨rfl, rfl⟩)
      have old_new : ∀ a ∈ s.work b r, ∀ x ∈ s.counted, x.batch = b.id → x.change = a.change → x.label ≠ a.label :=
        fun a ha x hx eq change label => h.left b mem r (here ▸ .head _) a ha x hx eq ⟨change, label⟩
      have right : (db.recount (s.db.openInferredRun r.id b.now INFERRED_GAP).2 (some b.now)).Right :=
        open_.addRunThreads added
      constructor
      case right  => exact right
      case plain  =>
        intro r hr inferred
        rcases extends_.inferred r hr inferred with none_ | ⟨r', hr', inferred', e⟩
        · exact none_
        · exact e.symm.trans (h.plain r' hr' inferred')
      case cloud  =>
        intro f hf
        obtain ⟨r, hr, id, cloud⟩ := h.cloud f hf
        obtain ⟨r', hr', id', cloud⟩ := extends_.cloud r hr cloud
        exact ⟨r', hr', id'.trans id, cloud⟩
      case apart  => exact next.apart
      case seen   =>
        intro x hx
        rcases List.mem_append.mp hx with hx | hx
        · exact h.seen x hx
        · obtain ⟨a, _, rfl⟩ := List.mem_map.mp hx
          exact (h.apart b mem).1
      case single =>
        intro x hx y hy ⟨batch, change, label⟩
        rcases List.mem_append.mp hx with hx | hx <;> rcases List.mem_append.mp hy with hy | hy
        · exact h.single x hx y hy ⟨batch, change, label⟩
        · obtain ⟨a, ha, rfl⟩ := List.mem_map.mp hy
          exact absurd label (old_new a ha x hx batch change)
        · obtain ⟨a, ha, rfl⟩ := List.mem_map.mp hx
          exact absurd label.symm (old_new a ha y hy batch.symm change.symm)
        · obtain ⟨a, _, rfl⟩ := List.mem_map.mp hx
          obtain ⟨a', _, rfl⟩ := List.mem_map.mp hy
          rfl
      case left   =>
        intro b' hb' r' hr' a' ha' x hx eq
        rcases List.mem_append.mp hx with hx | hx
        · exact next.left b' hb' r' hr' a' ha' x hx eq
        · obtain ⟨a, ha, rfl⟩ := List.mem_map.mp hx
          rcases Table.mem_replace.mp hb' with ⟨_, ne⟩ | rfl
          · exact absurd eq.symm ne
          · have apart := (List.pairwise_cons.mp (here ▸ (h.apart b mem).2)).1 r' hr'
            have := List.all_eq_true.mp (List.all_eq_true.mp apart a ha) a' ha'
            intro ⟨change, label⟩
            rw [Attributed.same, decide_eq_true ⟨change, label⟩] at this
            cases this

theorem Inv.merge {f : Refresh} {old : Nat} {olds : List Nat} (h : s.Inv) (mem : f ∈ s.refreshes)
    (inferred : ∀ r ∈ s.db.runs, r.id = old → r.inferred = true) :
    Inv { s.merge old f.row with refreshes := s.refreshes.replace { f with folding := .merges olds } } := by
  have rows : ∀ f' ∈ s.refreshes.replace { f with folding := .merges olds }, f'.row ∈ s.refreshes.rows.map (·.row) := by
    intro f' hf'
    rcases Table.mem_replace.mp hf' with ⟨hf', _⟩ | rfl
    · exact List.mem_map.mpr ⟨f', hf', rfl⟩
    · exact List.mem_map.mpr ⟨f, mem, rfl⟩
  unfold State.merge
  split
  case h_1 => exact h.write h.right .refl rfl rfl rfl rfl fun f' hf' => .inl (rows f' hf')
  case h_2 db merged =>
    have ne : old ≠ f.row := by
      rintro rfl
      obtain ⟨r, hr, id, cloud⟩ := h.cloud f mem
      rw [inferred r hr id] at cloud
      cases cloud
    have kept : Inv { s with db, refreshes := s.refreshes.replace { f with folding := .merges olds } } :=
      h.write (h.right.mergeRuns ne merged) (Store.extends_mergeRuns inferred merged) rfl rfl rfl rfl
        fun f' hf' => .inl (rows f' hf')
    -- What was counted in the one run is counted in the other.
    have moved : ∀ x ∈ s.counted.map fun c => if c.run = old then { c with run := f.row } else c,
        ∃ c ∈ s.counted, c.Same x ∧ x.run = if c.run = old then f.row else c.run := by
      intro x hx
      obtain ⟨c, hc, rfl⟩ := List.mem_map.mp hx
      refine ⟨c, hc, ?_, ?_⟩ <;> split <;> simp [Counted.Same]
    constructor
    case right  => exact kept.right
    case plain  => exact kept.plain
    case cloud  => exact kept.cloud
    case apart  => exact kept.apart
    case seen   =>
      intro x hx
      obtain ⟨c, hc, ⟨batch, _⟩, _⟩ := moved x hx
      exact batch ▸ h.seen c hc
    case single =>
      intro x hx y hy ⟨batch, change, label⟩
      obtain ⟨c, hc, ⟨b₁, c₁, l₁⟩, e⟩ := moved x hx
      obtain ⟨c', hc', ⟨b₂, c₂, l₂⟩, e'⟩ := moved y hy
      have same : c.run = c'.run := h.single c hc c' hc'
        ⟨b₁.trans (batch.trans b₂.symm), c₁.trans (change.trans c₂.symm), l₁.trans (label.trans l₂.symm)⟩
      rw [e, e', same]
    case left   =>
      intro b hb r hr a ha x hx eq
      obtain ⟨c, hc, ⟨batch, change, label⟩, _⟩ := moved x hx
      exact change ▸ label ▸ h.left b hb r hr a ha c hc (batch.trans eq)

theorem Inv.fold {refresh : Nat} (h : s.Inv) (ok : s.cond (.fold refresh) = true) (hs : s.step (.fold refresh) = some s') :
    s'.Inv := by
  obtain ⟨f, found, hs⟩ := Option.bind_eq_some_iff.mp hs
  have mem := Table.find?_mem found
  split at hs
  case h_1 =>
    cases hs
    refine h.write h.right .refl rfl rfl rfl rfl fun f' hf' => .inl ?_
    rcases Table.mem_replace.mp hf' with ⟨hf', _⟩ | rfl
    · exact List.mem_map.mpr ⟨f', hf', rfl⟩
    · exact List.mem_map.mpr ⟨f, mem, rfl⟩
  case h_2 =>
    cases hs
    exact h.write h.right .refl rfl rfl rfl rfl fun f' hf' => .inl (List.mem_map.mpr ⟨f', (Table.mem_delete.mp hf').1, rfl⟩)
  case h_3 old olds folding =>
    cases hs
    refine h.merge mem ?_
    have ok : ∀ r ∈ s.db.runs.rows, r.id ≠ old ∨ r.inferred = true := by simpa [cond, found, folding] using ok
    exact fun r hr eq => (ok r hr).resolve_left (not_not.mpr eq)

theorem Inv.step {a : Action} (h : s.Inv) (ok : s.cond a = true) (hs : s.step a = some s') : s'.Inv := by
  cases a
  case turnEnded => exact h.turnEnded ok hs
  case changed   => exact h.changed ok hs
  case fold      => exact h.fold ok hs
  case startSession =>
    simp only [State.step] at hs
    split at hs
    case isTrue  => cases hs
    case isFalse =>
      cases hs
      exact h.write (h.right.insertRun fun _ => rfl) (Store.extends_insertRun fun _ h => by cases h) rfl rfl rfl rfl
        kept_refreshes
  case missed =>
    simp only [State.step] at hs
    split at hs
    case isTrue  => cases hs
    case isFalse =>
      cases hs
      refine h.write h.right.missed ?_ rfl rfl rfl rfl kept_refreshes
      exact (Store.extends_insertRun fun _ h => by cases h).trans (Store.extends_updateRun fun _ => ⟨rfl, rfl⟩)
  case attributeNext =>
    obtain ⟨b, found, hs⟩ := Option.bind_eq_some_iff.mp hs
    have mem := Table.find?_mem found
    split at hs
    case h_1 =>
      cases hs
      exact ⟨h.right, h.plain, h.single, h.seen, fun b hb => h.apart b (Table.mem_delete.mp hb).1,
        fun b hb => h.left b (Table.mem_delete.mp hb).1, h.cloud⟩
    case h_2 r left here =>
      cases hs
      exact h.attributeTo mem here
  case cloudRun =>
    simp only [State.step] at hs
    split at hs
    case isTrue  => cases hs
    case isFalse =>
      cases hs
      refine h.write h.right.upsertCloudRun Store.extends_upsertCloudRun rfl rfl rfl rfl fun f hf => ?_
      rcases Table.mem_insertRow.mp hf with hf | rfl
      · exact .inl (List.mem_map.mpr ⟨f, hf, rfl⟩)
      · exact .inr (Store.upsertCloudRun_cloud h.plain)
  case runCloudNow =>
    simp only [State.step] at hs
    split at hs
    case isTrue  => cases hs
    case isFalse =>
      cases hs
      exact h.write h.right.upsertCloudRun Store.extends_upsertCloudRun rfl rfl rfl rfl kept_refreshes
  case undo =>
    cases hs
    exact h.write (h.right.updateRun fun _ => rfl) (Store.extends_updateRun fun _ => ⟨rfl, rfl⟩) rfl rfl rfl rfl kept_refreshes

theorem reachable_accounts (h : routineRuns.Reachable (fun s a => s.cond a = true) s) : s.Accounts := by
  refine Inv.accounts ?_
  apply h.invariant
  case start =>
    rintro s ⟨runs, threads, _, batches, refreshes, _, counted⟩
    refine ⟨⟨?_, ?_⟩, ?_, ?_, ?_, ?_, ?_, ?_⟩
    all_goals simp [runs, threads, batches, refreshes, counted, Table.not_mem_empty]
  case step => exact fun _ _ _ h ok hs => h.step ok hs

end State

section Examples

def buckets : List Bucket :=
  [{ id := "a", labelName := "Answer" }, { id := "r", labelName := "Read" }]

-- A local routine and two cloud routines, of which the last two may share a parent label.
def mailRoutines (parent : String) : State where
  routines := [
    { id := "desk", isLocal := true, parentLabel := "Desk", buckets },
    { id := "sort", isLocal := false, parentLabel := "Sort", buckets },
    { id := "copy", isLocal := false, parentLabel := parent, buckets }]
  nameOf   := [("L1", "Sort/Answer"), ("L2", "Sort/Read")]

theorem mailRoutines_start {parent : String} : routineRuns.Start (mailRoutines parent) :=
  ⟨rfl, rfl, rfl, rfl, rfl, rfl, rfl⟩

def arrive : List Action :=
  [.changed [{ thread := "t", added := ["L1"] }, { thread := "u", added := ["L2"] }] 1000, .attributeNext 0, .attributeNext 0]

-- A local run finishes, changes elsewhere are attributed to an inferred run, it turns out to be a cloud run, and the
-- local run is undone.
theorem reachable_accounts_merged : ∃ s : State, s.Accounts ∧ s.db.runs.rows.map (fun r => (r.id, r.counts)) =
    [(1, [("a", 1)]), (3, [("a", 1), ("r", 1)])] := by
  have run : (routineRuns.run (fun s a => s.cond a = true) (mailRoutines "Copy")
      ([.startSession "desk" "s1" 1, .turnEnded "s1" true "done" [.addLabel "Desk/Answer" ["v"]] 2] ++ arrive ++
        [.cloudRun "sort" "c1" "completed" 900 none, .fold 1, .fold 1, .fold 1, .undo 1 3000])).any fun s =>
          s.db.runs.rows.map (fun r => (r.id, r.counts)) = [(1, [("a", 1)]), (3, [("a", 1), ("r", 1)])] := by decide
  obtain ⟨s, hs, runs⟩ := (Option.any_eq_true _ _).mp run
  exact ⟨s, State.reachable_accounts (.run (.start mailRoutines_start) hs), of_decide_eq_true runs⟩

-- A run puts a thread into one bucket and then into another, and both are counted. And a change under the parent label
-- of two routines is counted in a run of each.
theorem counted_past_resort :
    (∃ s : State, routineRuns.Reachable (fun _ _ => True) s ∧
      (∃ r ∈ s.db.runs.rows, r.count "a" = 1 ∧ s.db.sorted r.id "a" = 0) ∧ ¬s.Accounts) ∧
    ∃ s : State, routineRuns.Reachable (fun _ _ => True) s ∧
      (∃ x ∈ s.counted, ∃ y ∈ s.counted, x.label = "L1" ∧ x.label = y.label ∧ x.run ≠ y.run) ∧ ¬s.Accounts := by
  constructor
  · have run : (routineRuns.run (fun _ _ => True) (mailRoutines "Copy")
        [.startSession "desk" "s1" 1,
         .turnEnded "s1" true "done" [.addLabel "Desk/Answer" ["v"], .addLabel "Desk/Read" ["v"]] 2]).any fun s =>
          ∃ r ∈ s.db.runs.rows, r.count "a" = 1 ∧ s.db.sorted r.id "a" = 0 := by decide
    obtain ⟨s, hs, off⟩ := (Option.any_eq_true _ _).mp run
    obtain ⟨r, hr, counted, sorted⟩ := of_decide_eq_true off
    refine ⟨s, .run (.start mailRoutines_start) hs, ⟨r, hr, counted, sorted⟩, fun h => ?_⟩
    have := h.counts r hr "a"
    rw [counted, sorted] at this
    cases this
  · have run : (routineRuns.run (fun _ _ => True) (mailRoutines "Sort") arrive).any fun s =>
        ∃ x ∈ s.counted, ∃ y ∈ s.counted, ∃ r ∈ s.db.runs.rows, ∃ r' ∈ s.db.runs.rows,
          (x.label = "L1" ∧ x.batch = y.batch ∧ x.change = y.change ∧ x.label = y.label) ∧
          (r.id = x.run ∧ r'.id = y.run ∧ r.undoneAt = none ∧ r'.undoneAt = none) ∧ r.id ≠ r'.id := by decide
    obtain ⟨s, hs, twice⟩ := (Option.any_eq_true _ _).mp run
    obtain ⟨x, hx, y, hy, r, hr, r', hr', ⟨first, same⟩, ⟨id, id', live, live'⟩, ne⟩ := of_decide_eq_true twice
    refine ⟨s, .run (.start mailRoutines_start) hs, ⟨x, hx, y, hy, first, same.2.2, id ▸ id' ▸ ne⟩, fun h => ne ?_⟩
    exact h.once x hx y hy same r hr r' hr' id id' live live'

end Examples

end Kaluta.RoutineRuns
