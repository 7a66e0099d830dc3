import Kaluta.Review.Health

-- Stopping a review loses nothing: what became of every pair that a run took.
namespace Kaluta.Review

variable {s s' : State} {a : Action} {db db' : Db} {id : CompositionId}

-- A run's pairs not compared are about to be given back.
def State.Releasing (s : State) (run : RunId) : Prop :=
  .releasing run ∈ s.calls ∨ s.job = some (.leaving run)

-- The run has no pairs that were not compared.
def Db.through (db : Db) (run : RunId) : Bool :=
  db.runPairs.rows.all fun p => p.runId ≠ run || p.done

-- Besides an unbroken merge: a stopped run's pairs are given back before the app stops, or the one that is to give
-- them back fails. A cancel that has the job drop an answer gives them back before the job ends the batch.
def State.lossless (s : State) (a : Action) : Bool :=
  s.unbroken a &&
  match a with
  | .crash      =>
    (s.calls.all fun | .releasing run => s.db.through run | _ => true) &&
    match s.job with
    | some (.leaving run) => s.db.through run
    | _                   => true
  | .drop i     =>
    match s.calls[i]? with
    | some (.releasing run) => s.db.through run
    | _                     => true
  | .jobFails _ =>
    match s.job with
    | some (.leaving run) => s.db.through run
    | _                   => true
  | .advance    =>
    match s.job with
    | some (.finishing run _ .dropped) => .releasing run ∉ s.calls
    | _                                => true
  | _           => true

-- Pairs that are reviewed were reviewed before.
def Db.Reviews (db db' : Db) : Prop :=
  ∀ c' ∈ db'.compositions, c'.status = .reviewed → UNCHANGED < c'.distance →
    ∃ c ∈ db.compositions, c.id = c'.id ∧ c.status = .reviewed ∧ UNCHANGED < c.distance

def Db.Active (db : Db) (run : RunId) : Prop :=
  ∃ r ∈ db.runs, r.id = run ∧ r.status.isActive

structure State.Kept (s : State) : Prop where
  handled  : ∀ p ∈ s.db.runPairs, p.done → ∃ ending, (p.runId, p.batch, ending) ∈ s.handled
  ending   : ∀ h ∈ s.handled, h.2.2 ≠ .dropped
  finishing : ∀ run batch ending, s.job = some (.finishing run batch ending) →
    ending = .dropped ∨ (run, batch, ending) ∈ s.handled
  reviewed : ∀ c ∈ s.db.compositions, c.status = .reviewed → UNCHANGED < c.distance →
    ∃ p ∈ s.db.runPairs, p.compositionId = c.id ∧ p.done
  stopped  : ∀ p ∈ s.db.runPairs, p.done = false → s.db.Active p.runId ∨ s.Releasing p.runId
  through  : ∀ run, s.job = some (.gleaning run) ∨ s.job = some (.ending run) →
    (∃ r ∈ s.db.runs, r.id = run) ∧ s.db.through run
  calls    : ∀ run status error after, .writing run status error after ∈ s.calls →
    status.isActive ∨ after = .release
  taken    : ∀ t ∈ s.taken, (∃ r ∈ s.db.runs, r.id = t.1) ∧ (∀ p ∈ s.db.runPairs, p.compositionId = t.2 → t.1 ≤ p.runId) ∧
    s.db.Has t.2 fun c => UNCHANGED < c.distance ∧ (c.status = .matched ∨ c.status = .reviewed)
  compared : ∀ t ∈ s.compared, ∃ p ∈ s.db.runPairs, p.runId = t.1 ∧ p.compositionId = t.2 ∧
    (p.done ∨ s.job = some (.finishing t.1 p.batch .merged))

theorem mem_eraseIdx_of_ne {x : α} {l : List α} (h : x ∈ l) (hi : l[i]? ≠ some x) : x ∈ l.eraseIdx i := by
  obtain ⟨j, hj⟩ := List.mem_iff_getElem?.mp h
  exact List.mem_eraseIdx_iff_getElem?.mpr ⟨j, fun heq => hi (heq ▸ hj), hj⟩

theorem mem_set_of_ne {x y : α} {l : List α} (h : x ∈ l) (hi : l[i]? ≠ some x) : x ∈ l.set i y := by
  obtain ⟨j, hj⟩ := List.mem_iff_getElem?.mp h
  have hne : i ≠ j := by rintro rfl; exact hi hj
  exact List.mem_iff_getElem?.mpr ⟨j, (List.getElem?_set_ne hne).trans hj⟩

theorem mem_through {run : RunId} : db.through run ↔ ∀ p ∈ db.runPairs, p.runId = run → p.done := by
  simp [Db.through, Table.mem_rows, or_iff_not_imp_left]

theorem Db.Reviews.of_eq (h : db'.compositions = db.compositions) : db.Reviews db' :=
  fun c hc hst hd => ⟨c, h ▸ hc, rfl, hst, hd⟩

theorem Db.Reviews.trans {db₁ db₂ db₃ : Db} (h : db₁.Reviews db₂) (h' : db₂.Reviews db₃) : db₁.Reviews db₃ := by
  intro c'' hc'' hst hd
  obtain ⟨c', hc', hid', hst', hd'⟩ := h' c'' hc'' hst hd
  obtain ⟨c, hc, hid, hst, hd⟩ := h c' hc' hst' hd'
  exact ⟨c, hc, hid.trans hid', hst, hd⟩

theorem Db.Reviews.update {p : Composition → Bool} {f : Composition → Composition} (hf : ∀ c, (f c).id = c.id)
    (h : db'.compositions = db.compositions.update p f hf)
    (keeps : ∀ c ∈ db.compositions, p c → (f c).status = .reviewed → UNCHANGED < (f c).distance →
      c.status = .reviewed ∧ UNCHANGED < c.distance) : db.Reviews db' := by
  intro c' hc' hst hd
  rw [h, Table.mem_update] at hc'
  rcases hc' with ⟨hc, _⟩ | ⟨c, hc, hp, rfl⟩
  · exact ⟨c', hc, rfl, hst, hd⟩
  · exact ⟨c, hc, (hf c).symm, keeps c hc hp hst hd⟩

theorem reviews_insertComposition (createdAt : Millis) : db.Reviews (db.insertComposition createdAt) := by
  intro c hc hst hd
  rw [Db.insertComposition, Table.mem_insertRow] at hc
  rcases hc with hc | rfl
  · exact ⟨c, hc, rfl, hst, hd⟩
  · cases hst

theorem reviews_draftGone (id : CompositionId) : db.Reviews (db.draftGone id) :=
  .update (f := ({ · with status := .discarded })) (fun _ => rfl) rfl fun _ _ _ hst => by cases hst

theorem reviews_purge (old : List CompositionId) : db.Reviews (db.purge old) :=
  .update (f := ({ · with texts := false })) (fun _ => rfl) rfl fun _ _ _ hst hd => ⟨hst, hd⟩

theorem reviews_setMatched (id : CompositionId) (distance : Nat) : db.Reviews (db.setMatched id distance) :=
  .update (f := ({ · with status := .matched, distance })) (fun _ => rfl) rfl fun _ _ _ hst => by cases hst

theorem reviews_setUnmatched (id : CompositionId) : db.Reviews (db.setUnmatched id) :=
  .update (f := ({ · with status := .unmatched })) (fun _ => rfl) rfl fun _ _ _ hst => by cases hst

theorem reviews_matchAll (found : List (CompositionId × Option Nat)) : db.Reviews (db.matchAll found) := by
  refine List.foldl_preserves (P := fun db' => db.Reviews db') ?_ (.of_eq rfl)
  rintro db' ⟨id, outcome⟩ _ ih
  cases outcome
  case none     => exact ih.trans (reviews_setUnmatched id)
  case some d _ => exact ih.trans (reviews_setMatched id d)

namespace State.Kept

-- A step that takes no pairs and ends no batch.
theorem frame (h : s.Kept) (comps : s.db.Evolves s'.db) (reviews : s.db.Reviews s'.db)
    (pairs : s'.db.runPairs = s.db.runPairs) (handled : s'.handled = s.handled) (taken : s'.taken = s.taken)
    (compared : s'.compared = s.compared) (runs : ∀ r ∈ s.db.runs, ∃ r' ∈ s'.db.runs, r'.id = r.id)
    (finishing : ∀ run batch ending, s'.job = some (.finishing run batch ending) →
      ending = .dropped ∨ s.job = some (.finishing run batch ending))
    (stopped : ∀ p ∈ s.db.runPairs, p.done = false → s.db.Active p.runId ∨ s.Releasing p.runId →
      s'.db.Active p.runId ∨ s'.Releasing p.runId)
    (through : ∀ run, s'.job = some (.gleaning run) ∨ s'.job = some (.ending run) →
      s.job = some (.gleaning run) ∨ s.job = some (.ending run) ∨ (∃ r ∈ s.db.runs, r.id = run) ∧ s.db.through run)
    (calls : ∀ run status error after, .writing run status error after ∈ s'.calls →
      .writing run status error after ∈ s.calls ∨ status.isActive ∨ after = .release)
    (merged : ∀ run batch, s.job = some (.finishing run batch .merged) → s'.job = s.job) : s'.Kept where
  handled p hp hd := handled ▸ h.handled p (pairs ▸ hp) hd
  ending          := handled ▸ h.ending
  finishing run batch ending hj := by
    rcases finishing run batch ending hj with hd | hs
    · exact .inl hd
    · exact handled ▸ h.finishing run batch ending hs
  reviewed c hc hst hd := by
    obtain ⟨c₀, hc₀, hid, hst₀, hd₀⟩ := reviews c hc hst hd
    rw [pairs, ← hid]
    exact h.reviewed c₀ hc₀ hst₀ hd₀
  stopped p hp hd := stopped p (pairs ▸ hp) hd (h.stopped p (pairs ▸ hp) hd)
  through run hj := by
    rw [Db.through, pairs]
    have ⟨⟨r, hr, hid⟩, ht⟩ : (∃ r ∈ s.db.runs, r.id = run) ∧ s.db.through run := by
      rcases through run hj with hj | hj | ht
      · exact h.through run (.inl hj)
      · exact h.through run (.inr hj)
      · exact ht
    obtain ⟨r', hr', hid'⟩ := runs r hr
    exact ⟨⟨r', hr', hid'.trans hid⟩, ht⟩
  calls run status error after hm := (calls run status error after hm).elim (h.calls run status error after) fun h => h
  taken t ht := by
    obtain ⟨⟨r, hr, hid⟩, later, hc⟩ := h.taken t (taken ▸ ht)
    obtain ⟨r', hr', hid'⟩ := runs r hr
    refine ⟨⟨r', hr', hid'.trans hid⟩, pairs ▸ later, ?_⟩
    refine hc.evolve comps (fun c hc => ?_) fun c c' hd hst hc => ⟨hd ▸ hc.left, hst ▸ hc.right⟩
    rcases hc.right with hst | hst <;> simp [hst]
  compared t ht := by
    obtain ⟨p, hp, hr, hid, hd⟩ := h.compared t (compared ▸ ht)
    refine ⟨p, pairs ▸ hp, hr, hid, hd.imp_right fun hj => (merged _ _ hj).trans hj⟩

-- A step of which the runs and the job know nothing, but for calls that begin or end.
theorem aside (h : s.Kept) (comps : s.db.Evolves s'.db) (reviews : s.db.Reviews s'.db)
    (pairs : s'.db.runPairs = s.db.runPairs) (runs : s'.db.runs = s.db.runs) (handled : s'.handled = s.handled)
    (taken : s'.taken = s.taken) (compared : s'.compared = s.compared) (job : s'.job = s.job)
    (kept : ∀ run, .releasing run ∈ s.calls → s.db.through run ∨ .releasing run ∈ s'.calls)
    (calls : ∀ run status error after, .writing run status error after ∈ s'.calls →
      .writing run status error after ∈ s.calls ∨ status.isActive ∨ after = .release) : s'.Kept := by
  refine h.frame comps reviews pairs handled taken compared (fun r hr => ⟨r, runs ▸ hr, rfl⟩)
    (fun _ _ _ hj => .inr (job ▸ hj)) (fun p hp hd ha => ?_) (fun run hj => ?_) calls (fun _ _ _ => job)
  · rcases ha with ⟨r, hr, ha⟩ | hc | hj
    · exact .inl ⟨r, runs ▸ hr, ha⟩
    · rcases kept _ hc with ht | hc
      · rw [mem_through.mp ht p hp rfl] at hd; cases hd
      · exact .inr (.inl hc)
    · exact .inr (.inr (job.trans hj))
  · rw [job] at hj
    exact hj.elim .inl fun hj => .inr (.inl hj)

-- The job goes on to another place, with nothing written.
theorem moved (h : s.Kept) (db : s'.db = s.db) (handled : s'.handled = s.handled) (taken : s'.taken = s.taken)
    (compared : s'.compared = s.compared) (calls : s'.calls = s.calls)
    (finishing : ∀ run batch ending, s'.job = some (.finishing run batch ending) →
      ending = .dropped ∨ s.job = some (.finishing run batch ending))
    (leaving : ∀ run, s.job = some (.leaving run) → s.db.through run ∨ s'.job = some (.leaving run))
    (through : ∀ run, s'.job = some (.gleaning run) ∨ s'.job = some (.ending run) →
      s.job = some (.gleaning run) ∨ s.job = some (.ending run) ∨ (∃ r ∈ s.db.runs, r.id = run) ∧ s.db.through run)
    (merged : ∀ run batch, s.job = some (.finishing run batch .merged) → s'.job = s.job) : s'.Kept := by
  refine h.frame (.of_eq (db ▸ rfl)) (.of_eq (db ▸ rfl)) (db ▸ rfl) handled taken compared
    (fun r hr => ⟨r, db ▸ hr, rfl⟩) finishing (fun p hp hd ha => ?_) through (fun _ _ _ _ hm => .inl (calls ▸ hm)) merged
  rcases ha with ha | hc | hj
  · exact .inl (db ▸ ha)
  · exact .inr (.inl (calls ▸ hc))
  · rcases leaving _ hj with ht | hj
    · rw [mem_through.mp ht p hp rfl] at hd; cases hd
    · exact .inr (.inr hj)

-- A status is written.
theorem written (h : s.Kept) (run : RunId) (status : RunStatus) (error : Option String)
    (db : s'.db = s.db.setRunStatus run status error) (handled : s'.handled = s.handled) (taken : s'.taken = s.taken)
    (compared : s'.compared = s.compared)
    (finishing : ∀ run batch ending, s'.job = some (.finishing run batch ending) →
      ending = .dropped ∨ s.job = some (.finishing run batch ending))
    (stops : status.isActive ∨ s'.Releasing run ∨ s.db.through run)
    (releasing : ∀ run, s.Releasing run → s'.Releasing run)
    (through : ∀ run, s'.job = some (.gleaning run) ∨ s'.job = some (.ending run) →
      s.job = some (.gleaning run) ∨ s.job = some (.ending run) ∨ (∃ r ∈ s.db.runs, r.id = run) ∧ s.db.through run)
    (calls : ∀ run status error after, .writing run status error after ∈ s'.calls →
      .writing run status error after ∈ s.calls ∨ status.isActive ∨ after = .release)
    (merged : ∀ run batch, s.job = some (.finishing run batch .merged) → s'.job = s.job) : s'.Kept := by
  refine h.frame (.of_eq (db ▸ rfl)) (.of_eq (db ▸ rfl)) (db ▸ rfl) handled taken compared (fun r hr => ?_) finishing
    (fun p hp hd ha => ?_) through calls merged
  · rw [db]
    exact Table.exists_mem_update (p := (·.id = run)) (f := ({ · with status, error })) (fun _ => rfl) hr
      (P := fun r' => r'.id = r.id) (by split <;> rfl)
  · rcases ha with ⟨r, hr, hid, ha⟩ | hr
    · by_cases heq : p.runId = run
      · rcases stops with hst | hr | ht
        · refine .inl ?_
          rw [Db.Active, db]
          refine Table.exists_mem_update (p := (·.id = run)) (f := ({ · with status, error })) (fun _ => rfl) hr
            (P := fun r' => r'.id = p.runId ∧ r'.status.isActive) ?_
          simp [hid, heq, hst]
        · exact .inr (heq ▸ hr)
        · rw [mem_through.mp ht p hp heq] at hd; cases hd
      · refine .inl ?_
        rw [Db.Active, db]
        refine Table.exists_mem_update (p := (·.id = run)) (f := ({ · with status, error })) (fun _ => rfl) hr
          (P := fun r' => r'.id = p.runId ∧ r'.status.isActive) ?_
        simp [hid, heq, ha]
    · exact .inr (releasing _ hr)

theorem released (h : s.Kept) (run : RunId) (db : s'.db = s.db.releasePairs run)
    (handled : s'.handled = s.handled) (taken : s'.taken = s.taken) (compared : s'.compared = s.compared)
    (job : s'.job = s.job ∨ s'.job = none ∧ s.job = some (.leaving run))
    (other : ∀ run' batch, s.job = some (.finishing run' batch .merged) → run' ≠ run)
    (releasing : ∀ run', run' ≠ run → .releasing run' ∈ s.calls → .releasing run' ∈ s'.calls)
    (calls : ∀ run status error after, .writing run status error after ∈ s'.calls →
      .writing run status error after ∈ s.calls) : s'.Kept := by
  have rows {p : RunPair} : p ∈ s'.db.runPairs ↔ p ∈ s.db.runPairs ∧ (p.runId = run → p.done) := by
    rw [db, Db.releasePairs, Table.mem_delete, decide_eq_false_iff_not]
    simp
  have same (j : Job) (hj : s'.job = some j) : s.job = some j := by
    rcases job with hs | ⟨hn, _⟩
    · exact hs ▸ hj
    · rw [hn] at hj; cases hj
  refine ⟨fun p hp hd => ?_, handled ▸ h.ending, fun r b e hj => handled ▸ h.finishing r b e (same _ hj), fun c hc hst hd => ?_,
    fun p hp hd => ?_, fun r hj => ?_, fun r st e af hm => h.calls r st e af (calls r st e af hm), fun t ht => ?_,
    fun t ht => ?_⟩
  · exact handled ▸ h.handled p (rows.mp hp).left hd
  · obtain ⟨p, hp, hid, hd⟩ := h.reviewed c (by rw [db] at hc; exact hc) hst hd
    exact ⟨p, rows.mpr ⟨hp, fun _ => hd⟩, hid, hd⟩
  · obtain ⟨hp, hr⟩ := rows.mp hp
    have hne : p.runId ≠ run := fun heq => by rw [hr heq] at hd; cases hd
    rcases h.stopped p hp hd with ha | hc | hj
    · exact .inl (by rw [db]; exact ha)
    · exact .inr (.inl (releasing _ hne hc))
    · rcases job with hs | ⟨_, hl⟩
      · exact .inr (.inr (hs.trans hj))
      · rw [hl] at hj
        exact absurd (Job.leaving.inj (Option.some.inj hj)).symm hne
  · obtain ⟨hr, ht⟩ := h.through r (hj.imp (same _) (same _))
    exact ⟨by rw [db]; exact hr, mem_through.mpr fun p hp hr => mem_through.mp ht p (rows.mp hp).left hr⟩
  · obtain ⟨hr, later, hc⟩ := h.taken t (taken ▸ ht)
    rw [db]
    exact ⟨hr, fun p hp => later p (rows.mp (db ▸ hp)).left, hc⟩
  · obtain ⟨p, hp, hr, hid, hd⟩ := h.compared t (compared ▸ ht)
    refine ⟨p, rows.mpr ⟨hp, fun heq => ?_⟩, hr, hid, hd.imp_right fun hj => ?_⟩
    · exact hd.resolve_right fun hj => other _ _ hj (hr ▸ heq)
    · rcases job with hs | ⟨_, hl⟩
      · exact hs.trans hj
      · rw [hl] at hj; cases hj

-- A batch ends, whose answer was not dropped or whose pairs were all given back or compared.
theorem finished {ending : Ending} (h : s.Kept) (hj : s.job = some (.finishing run batch ending))
    (ok : ending = .dropped → ∀ p ∈ s.db.runPairs, p.runId = run → p.batch = batch → p.done)
    (hs : s' = { s with db := s.db.finishBatch run batch, job := some (.looking run) }) : s'.Kept := by
  subst hs
  have rows {p : RunPair} (hp : p ∈ (s.db.finishBatch run batch).runPairs) :
      ∃ q ∈ s.db.runPairs, q.runId = p.runId ∧ q.compositionId = p.compositionId ∧ q.batch = p.batch ∧
        (p = q ∨ p.done ∧ p.runId = run ∧ p.batch = batch) := by
    rw [Db.finishBatch, Table.mem_update] at hp
    rcases hp with ⟨hp, _⟩ | ⟨q, hq, hy, rfl⟩
    · exact ⟨p, hp, rfl, rfl, rfl, .inl rfl⟩
    · obtain ⟨hr, hb⟩ := of_decide_eq_true hy
      exact ⟨q, hq, rfl, rfl, rfl, .inr ⟨rfl, hr, hb⟩⟩
  have keeps {q : RunPair} (hq : q ∈ s.db.runPairs) : ∃ p ∈ (s.db.finishBatch run batch).runPairs,
      p.runId = q.runId ∧ p.compositionId = q.compositionId ∧
      (q.done ∨ q.runId = run ∧ q.batch = batch → p.done) := by
    refine Table.exists_mem_update (t := s.db.runPairs) (p := fun p => p.runId = run ∧ p.batch = batch)
      (f := ({ · with done := true })) (fun _ => rfl) hq
      (P := fun p => p.runId = q.runId ∧ p.compositionId = q.compositionId ∧
        (q.done ∨ q.runId = run ∧ q.batch = batch → p.done)) ?_
    by_cases hy : q.runId = run ∧ q.batch = batch
    case pos => simp [hy]
    case neg => simp [hy]
  refine ⟨fun p hp hd => ?_, h.ending, (by simp), fun c hc hst hd => ?_, fun p hp hd => ?_, (by simp), h.calls,
    fun t ht => ?_, fun t ht => ?_⟩
  · obtain ⟨q, hq, hr, hid, hb, rfl | ⟨_, hr', hb'⟩⟩ := rows hp
    · exact h.handled p hq hd
    · rcases h.finishing run batch ending hj with hdr | hm
      · obtain ⟨e, he⟩ := h.handled q hq (ok hdr q hq (hr.trans hr') (hb.trans hb'))
        exact ⟨e, hr ▸ hb ▸ he⟩
      · exact ⟨ending, hr'.symm ▸ hb'.symm ▸ hm⟩
  · simp only [Db.finishBatch, Db.markReviewed, Table.mem_update] at hc
    rcases hc with ⟨hc, _⟩ | ⟨c₀, hc₀, hy, rfl⟩
    · obtain ⟨q, hq, hid, hd⟩ := h.reviewed c hc hst hd
      obtain ⟨p, hp, _, hid', hd'⟩ := keeps hq
      exact ⟨p, hp, hid'.trans hid, hd' (.inl hd)⟩
    · obtain ⟨q, hq, hr, hb, hid⟩ := State.Counted.mem_pairsOf.mp (of_decide_eq_true hy)
      obtain ⟨p, hp, _, hid', hd'⟩ := keeps hq
      exact ⟨p, hp, hid'.trans hid, hd' (.inr ⟨hr, hb⟩)⟩
  · obtain ⟨q, hq, hr, hid, hb, rfl | ⟨hd', _⟩⟩ := rows hp
    · rcases h.stopped p hq hd with ha | hc | hl
      · exact .inl ha
      · exact .inr (.inl hc)
      · rw [hj] at hl; cases hl
    · rw [hd'] at hd; cases hd
  · obtain ⟨hr, later, hc⟩ := h.taken t ht
    refine ⟨hr, fun p hp hid' => ?_, ?_⟩
    · obtain ⟨q, hq, hrq, hidq, _⟩ := rows hp
      exact hrq ▸ later q hq (hidq.trans hid')
    · obtain ⟨c', hc', hid', c₀, _, _, h₀, hd', hst'⟩ :=
        State.Counted.has_markReviewed (s.db.pairsOf run batch) hc
      refine ⟨c', hc', hid', hd' ▸ h₀.left, ?_⟩
      rw [hst']
      split
      · exact .inr rfl
      · exact h₀.right
  · obtain ⟨q, hq, hr, hid, hd⟩ := h.compared t ht
    obtain ⟨p, hp, hr', hid', hd'⟩ := keeps hq
    refine ⟨p, hp, hr'.trans hr, hid'.trans hid, .inl (hd' (hd.imp_right fun hm => ?_))⟩
    rw [hj] at hm
    obtain ⟨rfl, rfl, rfl⟩ : run = t.1 ∧ batch = q.batch ∧ ending = .merged := by simpa using hm
    exact ⟨hr, rfl⟩

-- A batch's answer is merged, or cannot be read, or there was nothing to ask.
theorem through_batch (h : s.Kept) (ending : Ending) (he : ending ≠ .dropped) (comps : s.db.Evolves s'.db)
    (reviews : s.db.Reviews s'.db)
    (pairs : s'.db.runPairs = s.db.runPairs) (runs : s'.db.runs = s.db.runs) (taken : s'.taken = s.taken)
    (calls : s'.calls = s.calls) (job : s'.job = some (.finishing run batch ending))
    (handled : s'.handled = (run, batch, ending) :: s.handled)
    (leaving : ∀ run, s.job ≠ some (.leaving run)) (merged : ∀ run batch, s.job ≠ some (.finishing run batch .merged))
    (compared : ∀ t ∈ s'.compared, t ∈ s.compared ∨
      { runId := t.1, compositionId := t.2, batch } ∈ s.db.runPairs ∧ t.1 = run ∧ ending = .merged) : s'.Kept := by
  refine ⟨fun p hp hd => ?_, ?_, fun r b e hj => ?_, fun c hc hst hd => ?_, fun p hp hd => ?_, ?_,
    calls ▸ h.calls, fun t ht => ?_, fun t ht => ?_⟩
  · obtain ⟨e, hm⟩ := h.handled p (pairs ▸ hp) hd
    exact ⟨e, handled ▸ List.mem_cons_of_mem _ hm⟩
  · rw [handled]
    exact List.forall_mem_cons.mpr ⟨he, h.ending⟩
  · rw [job] at hj
    cases hj
    exact .inr (handled ▸ List.mem_cons_self)
  · obtain ⟨c₀, hc₀, hid, hst₀, hd₀⟩ := reviews c hc hst hd
    rw [pairs, ← hid]
    exact h.reviewed c₀ hc₀ hst₀ hd₀
  · rcases h.stopped p (pairs ▸ hp) hd with ⟨r, hr, ha⟩ | hc | hj
    · exact .inl ⟨r, runs ▸ hr, ha⟩
    · exact .inr (.inl (calls ▸ hc))
    · exact absurd hj (leaving _)
  · simp [job]
  · obtain ⟨⟨r, hr, hid⟩, later, hc⟩ := h.taken t (taken ▸ ht)
    refine ⟨⟨r, runs ▸ hr, hid⟩, pairs ▸ later, ?_⟩
    refine hc.evolve comps (fun c hc => ?_) fun c c' hd hst hc => ⟨hd ▸ hc.left, hst ▸ hc.right⟩
    rcases hc.right with hst | hst <;> simp [hst]
  · rcases compared t ht with ht | ⟨hp, hr, hm⟩
    · obtain ⟨p, hp, hr, hid, hd⟩ := h.compared t ht
      exact ⟨p, pairs ▸ hp, hr, hid, .inl (hd.resolve_right (merged _ _))⟩
    · exact ⟨_, pairs ▸ hp, rfl, rfl, .inr (by rw [job, hr, hm])⟩

theorem created (h : s.Kept) (daily : Bool) (day : Day) : (s.create daily day).Kept := by
  rw [State.create]
  split
  case isTrue =>
    exact h.aside (.of_eq rfl) (.of_eq rfl) rfl rfl rfl rfl rfl rfl (fun _ hc => .inr hc) fun _ _ _ _ hm => .inl hm
  case isFalse =>
    set pairs := s.db.pairsToCompare (s.db.pairsPerDay.getD DEFAULT_PAIRS_PER_DAY - s.db.pairsTakenOn day) with hpairs
    have keeps {p : RunPair} (hp : p ∈ s.db.runPairs) :
        p ∈ ((s.db.insertRun day daily).1.insertPairs s.db.runs.nextRowid pairs).runPairs :=
      State.Counted.mem_insertPairs_of_mem (s.db.insertRun day daily).1 hp _ _
    have older {r : RunRow} (hr : r ∈ s.db.runs) : r ∈ (s.db.insertRun day daily).1.runs := by
      simp [Db.insertRun, hr]
    refine ⟨fun p hp hd => ?_, h.ending, h.finishing, fun c hc hst hd => ?_, fun p hp hd => ?_, fun run hj => ?_, h.calls,
      fun t ht => ?_, fun t ht => ?_⟩
    · rcases mem_insertPairs hp with hp | ⟨_, _, hd'⟩
      · exact h.handled p hp hd
      · rw [hd'] at hd; cases hd
    · obtain ⟨p, hp, hid, hd⟩ := h.reviewed c hc hst hd
      exact ⟨p, keeps hp, hid, hd⟩
    · rcases mem_insertPairs hp with hp | ⟨hr, _, _⟩
      · rcases h.stopped p hp hd with ⟨r, hr, ha⟩ | hr
        · exact .inl ⟨r, older hr, ha⟩
        · exact .inr hr
      · exact .inl ⟨{ id := s.db.runs.nextRowid, day, daily }, by simp [Db.createRun, Db.insertRun], hr.symm, rfl⟩
    · obtain ⟨⟨r, hr, hid⟩, ht⟩ := h.through run hj
      refine ⟨⟨r, older hr, hid⟩, mem_through.mpr fun p hp hr' => ?_⟩
      rcases mem_insertPairs hp with hp | ⟨hnew, _, _⟩
      · exact mem_through.mp ht p hp hr'
      · exact absurd (hid.trans (hr'.symm.trans hnew)) (Table.lt_nextRowid hr).ne
    · rcases List.mem_append.mp ht with ht | ht
      · obtain ⟨id, hid, rfl⟩ := List.mem_map.mp ht
        obtain ⟨c, hc, rfl, hcmp⟩ := State.Counted.mem_pairsToCompare hid
        obtain ⟨hst, hdist, hfree⟩ := of_decide_eq_true hcmp
        refine ⟨⟨{ id := s.db.runs.nextRowid, day, daily }, by simp [Db.createRun, Db.insertRun], rfl⟩, fun p hp hid => ?_,
          c, hc, rfl, hdist, .inl hst⟩
        rcases mem_insertPairs hp with hp | ⟨hr, _, _⟩
        · exact absurd hid (hfree p hp)
        · exact hr.ge
      · obtain ⟨⟨r, hr, hid⟩, later, hc⟩ := h.taken t ht
        refine ⟨⟨r, older hr, hid⟩, fun p hp hid' => ?_, hc⟩
        rcases mem_insertPairs hp with hp | ⟨hr', _, _⟩
        · exact later p hp hid'
        · rw [hr', ← hid]
          exact (Table.lt_nextRowid hr).le
    · obtain ⟨p, hp, hr, hid, hd⟩ := h.compared t ht
      exact ⟨p, keeps hp, hr, hid, hd⟩

theorem reinforced (h : s.Kept) (applied : CompositionId → List EntryId)
    (hid : s.db.Has id fun c => c.distance ≤ UNCHANGED ∧ c.status ≠ .waiting) : (s.reinforceOne applied id).Kept := by
  rw [State.reinforceOne]
  split
  case isFalse => exact h
  case isTrue hm =>
    obtain ⟨hruns, hpairs, hcomps⟩ := Db.foldl_addHealth_frame s.db (fun e => e) 1 0 (applied id).dedup
    have keep {id' : CompositionId} {P : Composition → Prop} (h : s.db.Has id' P) :
        ((applied id).dedup.foldl (fun db e => db.addHealth e 1 0) s.db).Has id' P := by
      rwa [Db.Has, hcomps]
    refine ⟨fun p hp => h.handled p (hpairs ▸ hp), h.ending, h.finishing, fun c hc hst hd => ?_, fun p hp hd => ?_,
      fun run hj => ?_, h.calls, fun t ht => ?_, fun t ht => ?_⟩
    · simp only [Db.markReviewed, hcomps, Table.mem_update] at hc
      simp only [Db.markReviewed_runPairs, hpairs]
      rcases hc with ⟨hc, _⟩ | ⟨c₀, hc₀, hy, rfl⟩
      · exact h.reviewed c hc hst hd
      · obtain ⟨c, hc, hid, hle, _⟩ := hid
        have : c₀ = c := Table.eq_of_key_eq hc₀ hc ((List.mem_singleton.mp (of_decide_eq_true hy)).trans hid.symm)
        exact absurd hd (by simp only [this]; omega)
    · rcases h.stopped p (hpairs ▸ hp) hd with ⟨r, hr, ha⟩ | hr
      · exact .inl ⟨r, hruns ▸ hr, ha⟩
      · exact .inr hr
    · obtain ⟨⟨r, hr, hid⟩, ht⟩ := h.through run hj
      exact ⟨⟨r, hruns ▸ hr, hid⟩, mem_through.mpr fun p hp => mem_through.mp ht p (hpairs ▸ hp)⟩
    · obtain ⟨⟨r, hr, hid'⟩, later, hc⟩ := h.taken t ht
      refine ⟨⟨r, hruns ▸ hr, hid'⟩, fun p hp => later p (hpairs ▸ hp), ?_⟩
      obtain ⟨c, hc, hid, c₀, _, _, h₀, hd, hst⟩ := State.Counted.has_markReviewed [id] (keep hc)
      refine ⟨c, hc, hid, hd ▸ h₀.left, ?_⟩
      rw [hst]
      split
      · exact .inr rfl
      · exact h₀.right
    · obtain ⟨p, hp, hr, hid, hd⟩ := h.compared t ht
      exact ⟨p, hpairs ▸ hp, hr, hid, hd⟩

end State.Kept

theorem go_kept (h : s.Kept) (ok : s.unbroken (.go i b)) (hs : s.go i b = some s') : s'.Kept := by
  rw [State.go, Option.bind_eq_bind, Option.bind_eq_some_iff] at hs
  obtain ⟨c, hc, hs⟩ := hs
  have other {run : RunId} (hne : c ≠ .releasing run) : s.calls[i]? ≠ some (.releasing run) := by
    simpa [hc] using hne
  have erased : ∀ run status error after, Call.writing run status error after ∈ s.calls.eraseIdx i →
      .writing run status error after ∈ s.calls ∨ status.isActive ∨ after = .release :=
    fun _ _ _ _ hm => .inl (List.mem_of_mem_eraseIdx hm)
  have set' {call : Call} (hcall : ∀ run status error after, call = .writing run status error after → status.isActive) :
      ∀ run status error after, Call.writing run status error after ∈ s.calls.set i call →
        .writing run status error after ∈ s.calls ∨ status.isActive ∨ after = .release := by
    intro run status error after hm
    rcases List.mem_or_eq_of_mem_set hm with hm | rfl
    · exact .inl hm
    · exact .inr (.inl (hcall _ _ _ _ rfl))
  cases c
  case starting daily day =>
    dsimp only at hs
    split at hs
    · cases hs
    · cases hs
      exact h.aside (.of_eq rfl) (.of_eq rfl) rfl rfl rfl rfl rfl rfl
        (fun run hm => .inr (mem_eraseIdx_of_ne hm (other (by rintro ⟨⟩)))) erased
  case resuming run retry =>
    dsimp only at hs
    split at hs
    · cases hs
      exact h.aside (.of_eq rfl) (.of_eq rfl) rfl rfl rfl rfl rfl rfl
        (fun run hm => .inr (mem_set_of_ne hm (other (by rintro ⟨⟩)))) (set' fun _ _ _ _ heq => by cases heq; rfl)
    · split at hs <;> cases hs
      · exact h.aside (.of_eq rfl) (.of_eq rfl) rfl rfl rfl rfl rfl rfl
          (fun run hm => .inr (mem_eraseIdx_of_ne hm (other (by rintro ⟨⟩)))) erased
      · exact h.aside (.of_eq rfl) (.of_eq rfl) rfl rfl rfl rfl rfl rfl
          (fun run hm => .inr (mem_set_of_ne hm (other (by rintro ⟨⟩)))) (set' fun _ _ _ _ heq => by cases heq; rfl)
  case writing run status error after =>
    have stops := h.calls run status error after (List.mem_of_getElem? hc)
    have through : ∀ run, s.job = some (.gleaning run) ∨ s.job = some (.ending run) →
        s.job = some (.gleaning run) ∨ s.job = some (.ending run) ∨ (∃ r ∈ s.db.runs, r.id = run) ∧ s.db.through run :=
      fun run hj => hj.imp_right .inl
    cases after <;> cases hs
    · exact h.written run status error rfl rfl rfl rfl (fun _ _ _ => .inr) (.inl (stops.resolve_right (by rintro ⟨⟩)))
        (fun r hr => hr.imp_left fun hm => mem_eraseIdx_of_ne hm (other (by rintro ⟨⟩))) through erased fun _ _ _ => rfl
    · exact h.written run status error rfl rfl rfl rfl (fun _ _ _ => .inr) (.inl (stops.resolve_right (by rintro ⟨⟩)))
        (fun r hr => hr.imp_left fun hm => mem_set_of_ne hm (other (by rintro ⟨⟩))) through (set' (by simp)) fun _ _ _ => rfl
    · have hlt : i < s.calls.length := (List.getElem?_eq_some_iff.mp hc).choose
      exact h.written run status error rfl rfl rfl rfl (fun _ _ _ => .inr)
        (.inr (.inl (.inl (List.mem_set hlt (.releasing run)))))
        (fun r hr => hr.imp_left fun hm => mem_set_of_ne hm (other (by rintro ⟨⟩))) through (set' (by simp)) fun _ _ _ => rfl
  case releasing run =>
    cases hs
    have hr : s.releases (.go i b) = some run := by simp [State.releases, hc]
    exact h.released run rfl rfl rfl rfl (.inl rfl) (fun _ _ hj => unbroken_releases ok hr hj)
      (fun run' hne hm => mem_eraseIdx_of_ne hm (by simpa [hc] using Ne.symm hne))
      fun _ _ _ _ hm => List.mem_of_mem_eraseIdx hm
  case spawning run  =>
    cases hs
    refine h.frame (.of_eq rfl) (.of_eq rfl) rfl rfl rfl rfl (fun r hr => ⟨r, hr, rfl⟩) (fun r b e hj => ?_)
      (fun p _ _ ha => ?_) (fun r hj => ?_) erased (fun r b hj => ?_)
    · cases hjob : s.job <;> simp [State.spawnJob, hjob] at hj ⊢; exact .inr hj
    · refine ha.imp_right fun hr => hr.imp (fun hm => mem_eraseIdx_of_ne hm (other (by rintro ⟨⟩))) fun hj => ?_
      simp [State.spawnJob, hj]
    · cases hjob : s.job <;> simp [State.spawnJob, hjob] at hj ⊢
      exact hj.imp_right .inl
    · simp [State.spawnJob, hj]

theorem nextBatch_eq_none {run : RunId} (h : db.nextBatch run = none) : db.through run := by
  rw [Db.nextBatch, Option.map_eq_none_iff, List.min?_eq_none_iff, List.map_eq_nil_iff, List.filter_eq_nil_iff] at h
  refine mem_through.mpr fun p hp hr => ?_
  simpa [hr] using h p hp

theorem look_kept (h : s.Kept) (hj : s.job = some (.looking run)) : (s.look run).Kept := by
  simp only [State.look]
  split
  case h_1 => exact h.moved rfl rfl rfl rfl rfl (by simp) (by simp [hj]) (by simp) (by simp [hj])
  case h_2 row hr =>
    split
    · cases s.db.activeRun.filter (·.status = .running) <;>
        exact h.moved rfl rfl rfl rfl rfl (by simp) (by simp [hj]) (by simp) (by simp [hj])
    · split
      case h_1 hn =>
        refine h.moved rfl rfl rfl rfl rfl (by simp) (by simp [hj]) (fun run' hg => .inr (.inr ?_)) (by simp [hj])
        obtain rfl : run = run' := by simpa using hg
        exact ⟨⟨row, Table.find?_mem hr, Table.find?_key_eq hr⟩, nextBatch_eq_none hn⟩
      case h_2 => exact h.moved rfl rfl rfl rfl rfl (by simp) (by simp [hj]) (by simp) (by simp [hj])

theorem check_kept (h : s.Kept) (hj : s.job = some (.answered run batch pairs attempt answer)) :
    (s.check run batch pairs attempt answer).Kept := by
  simp only [State.check]
  split
  case isTrue  =>
    refine h.moved rfl rfl rfl rfl rfl (fun r b e hf => .inl ?_) (by simp [hj]) (by simp) (by simp [hj])
    exact (Job.finishing.inj (Option.some.inj hf)).right.right.symm
  case isFalse =>
    split
    · exact h.moved rfl rfl rfl rfl rfl (by simp) (by simp [hj]) (by simp) (by simp [hj])
    · split
      · exact h.moved rfl rfl rfl rfl rfl (by simp) (by simp [hj]) (by simp) (by simp [hj])
      · exact h.through_batch .unreadable (by rintro ⟨⟩) (.of_eq rfl) (.of_eq rfl) rfl rfl rfl rfl rfl rfl
          (by simp [hj]) (by simp [hj]) fun t ht => .inl ht

section Asked

variable {run : RunId}

-- What is known of a batch that the job has in hand: its run; and once its answer was dropped, that the run's pairs
-- were given back, or a cancel is about to give them back.
def State.Holds (s : State) : Job → Prop
  | .chosen run _ _ | .asking run _ _ _ | .answered run _ _ _ _ => ∃ r ∈ s.db.runs, r.id = run
  | .finishing run _ .dropped                                   =>
    (∃ r ∈ s.db.runs, r.id = run) ∧ (s.db.through run ∨ .releasing run ∈ s.calls)
  | _                                                           => True

def State.Asked (s : State) : Prop :=
  ∀ j ∈ s.job, s.Holds j

theorem through_releasePairs : (db.releasePairs run).through run := by
  refine mem_through.mpr fun p hp hr => ?_
  rw [Db.releasePairs, Table.mem_delete, decide_eq_false_iff_not] at hp
  simpa [hr] using hp.right

-- No step gives a run that is there pairs to compare.
theorem through_kept (hs : s.step a = some s') (hr : ∃ r ∈ s.db.runs, r.id = run) (h : s.db.through run) :
    s'.db.through run := by
  have done := mem_through.mp h
  refine mem_through.mpr fun p hp hid => ?_
  cases step_pairs hs
  case kept pairs _ => exact done p (pairs ▸ hp) hid
  case released pairs _ =>
    rw [pairs, Db.releasePairs, Table.mem_delete] at hp
    exact done p hp.left hid
  case finished pairs _ =>
    rw [pairs, Db.finishBatch, Table.mem_update] at hp
    rcases hp with ⟨hp, _⟩ | ⟨q, _, _, rfl⟩
    · exact done p hp hid
    · rfl
  case created daily day eq =>
    subst eq
    rw [State.create] at hp
    split at hp
    case isTrue  => exact done p hp hid
    case isFalse =>
      rcases mem_insertPairs hp with hp | ⟨new, _⟩
      · exact done p hp hid
      · obtain ⟨r, hr, rfl⟩ := hr
        exact absurd (hid.symm.trans new) (Table.lt_nextRowid hr).ne

theorem go_releasing (hs : s.go i b = some s') (h : .releasing run ∈ s.calls) :
    s'.db.through run ∨ .releasing run ∈ s'.calls := by
  rw [State.go, Option.bind_eq_bind, Option.bind_eq_some_iff] at hs
  obtain ⟨c, hc, hs⟩ := hs
  have other {run : RunId} (hne : c ≠ .releasing run) : s.calls[i]? ≠ some (.releasing run) := by
    simpa [hc] using hne
  cases c
  case starting =>
    dsimp only at hs
    split at hs <;> cases hs
    exact .inr (mem_eraseIdx_of_ne h (other (by simp)))
  case resuming =>
    dsimp only at hs
    split at hs
    · cases hs; exact .inr (mem_set_of_ne h (other (by simp)))
    · split at hs <;> cases hs
      · exact .inr (mem_eraseIdx_of_ne h (other (by simp)))
      · exact .inr (mem_set_of_ne h (other (by simp)))
  case writing run status error after =>
    cases after <;> cases hs
    · exact .inr (mem_eraseIdx_of_ne h (other (by simp)))
    · exact .inr (mem_set_of_ne h (other (by simp)))
    · exact .inr (mem_set_of_ne h (other (by simp)))
  case releasing run' =>
    cases hs
    by_cases same : run' = run
    case pos => exact .inl (same ▸ through_releasePairs)
    case neg => exact .inr (mem_eraseIdx_of_ne h (other fun eq => same (Call.releasing.inj eq)))
  case spawning => cases hs; exact .inr (mem_eraseIdx_of_ne h (other (by simp)))

theorem advance_calls (hs : s.advance j = some s') : s'.calls = s.calls := by
  cases j <;> simp only [State.advance, Option.some.injEq, reduceCtorEq] at hs <;> subst hs
  case looking run =>
    obtain ⟨⟨_, eq⟩, _⟩ := look_job s run
    rw [eq]
  case answered =>
    simp only [State.check]
    split
    · rfl
    · split
      · rfl
      · split <;> rfl
  all_goals rfl

-- A cancel that is to give a run's pairs back does so.
theorem releasing_kept (ok : s.lossless a) (hs : s.step a = some s') (h : .releasing run ∈ s.calls) :
    s'.db.through run ∨ .releasing run ∈ s'.calls := by
  have more := (Bool.and_eq_true_iff.mp ok).right
  have called {f : RunRow → Option Call} : .releasing run ∈ (s.call f).calls := by
    rw [State.call]
    cases s.db.activeRun.bind f
    case none   => exact h
    case some _ => exact List.mem_append_left _ h
  cases a <;> simp only [State.step, Option.some.injEq] at hs
  case go i b => exact go_releasing hs h
  case drop i =>
    subst hs
    by_cases hi : s.calls[i]? = some (.releasing run)
    case pos => exact .inl (by simpa only [hi] using more)
    case neg => exact .inr (mem_eraseIdx_of_ne h hi)
  case crash => exact .inl (hs ▸ List.all_eq_true.mp (Bool.and_eq_true_iff.mp more).left _ h)
  case tick =>
    subst hs
    rw [State.tick]
    split
    case h_1 => exact .inr called
    case h_2 =>
      split
      case isTrue  => exact .inr h
      case isFalse => exact .inr (List.mem_append_left _ h)
  case runNow => exact .inr (hs ▸ List.mem_append_left _ h)
  case pause  => exact .inr (hs ▸ called)
  case resume => exact .inr (hs ▸ called)
  case cancel => exact .inr (hs ▸ called)
  case reinforce =>
    split at hs <;> cases hs
    case h_1 daily day ids applied _ =>
      refine .inr (List.foldl_preserves (P := fun t : State => .releasing run ∈ t.calls) (fun id _ h => ?_) h)
      rw [State.reinforceOne]
      split <;> exact h
  case create =>
    split at hs <;> cases hs
    case h_1 daily day _ =>
      rw [State.create]
      split <;> exact .inr h
  case advance =>
    obtain ⟨j, _, hs⟩ := Option.bind_eq_some_iff.mp hs
    exact .inr (advance_calls hs ▸ h)
  case ready =>
    obtain ⟨j, _, hs⟩ := Option.bind_eq_some_iff.mp hs
    simp only [State.ready] at hs
    split at hs
    · split at hs <;> cases hs <;> exact .inr h
    · cases hs; exact .inr h
    · cases hs
  case jobFails why =>
    obtain ⟨j, _, rfl⟩ := Option.map_eq_some_iff.mp hs
    cases j <;> exact .inr h
  case matched    => split at hs <;> cases hs; exact .inr h
  case count      => split at hs <;> cases hs; exact .inr h
  case spawn      => split at hs <;> cases hs; exact .inr h
  case answer     => split at hs <;> cases hs; exact .inr h
  case agentStops => split at hs <;> cases hs <;> exact .inr h
  case gleaned    => split at hs <;> cases hs; exact .inr h
  all_goals exact .inr (hs ▸ h)

theorem holds_kept {j : Job} (ok : s.lossless a) (hs : s.step a = some s') (h : s.Holds j) : s'.Holds j := by
  cases j
  case chosen   => exact runs_kept hs h
  case asking   => exact runs_kept hs h
  case answered => exact runs_kept hs h
  case finishing run batch ending =>
    cases ending
    case dropped => exact ⟨runs_kept hs h.left, h.right.elim (.inl ∘ through_kept hs h.left) (releasing_kept ok hs)⟩
    all_goals trivial
  all_goals trivial

-- The pairs of a run that is found cancelled: a cancel has given them back, or is about to.
theorem cancelled_through (h : s.Kept) (hj : s.job = some (.answered run batch pairs attempt answer))
    (hr : ∃ r ∈ s.db.runs, r.id = run) (cancelled : (s.db.getRun run).all (·.status = .cancelled)) :
    s.db.through run ∨ .releasing run ∈ s.calls := by
  refine or_iff_not_imp_left.mpr fun hn => ?_
  obtain ⟨r, hr, rfl⟩ := hr
  have found : s.db.getRun r.id = some r := Table.find?_key hr
  have status : r.status = .cancelled := by
    rw [found] at cancelled
    exact of_decide_eq_true cancelled
  have ⟨p, hp, hid, hd⟩ : ∃ p ∈ s.db.runPairs, p.runId = r.id ∧ p.done = false := by
    by_contra none
    refine hn (mem_through.mpr fun p hp hid => ?_)
    by_contra hd
    exact none ⟨p, hp, hid, Bool.eq_false_iff.mpr hd⟩
  rcases h.stopped p hp hd with ⟨r', hr', hid', active⟩ | releasing | leaving
  · have : r' = r := Table.eq_of_key_eq hr' hr (hid'.trans hid)
    rw [this, status] at active
    cases active
  · exact hid ▸ releasing
  · rw [hj] at leaving
    cases leaving

theorem look_asked (run : RunId) : (s.look run).Asked := by
  simp only [State.look]
  split
  case h_1 => rintro j ⟨⟩
  case h_2 row hr =>
    split
    · intro j hj
      obtain ⟨_, _, rfl⟩ := Option.map_eq_some_iff.mp hj
      trivial
    · split <;> (rintro j ⟨⟩)
      · trivial
      · exact ⟨row, Table.find?_mem hr, Table.find?_key_eq hr⟩

theorem check_asked (h : s.Asked) (hk : s.Kept) (hj : s.job = some (.answered run batch pairs attempt answer)) :
    (s.check run batch pairs attempt answer).Asked := by
  have known : ∃ r ∈ s.db.runs, r.id = run := h _ hj
  simp only [State.check]
  split
  case isTrue cancelled =>
    rintro j ⟨⟩
    exact ⟨known, cancelled_through (s := s) hk hj known cancelled⟩
  case isFalse =>
    split
    · rintro j ⟨⟩
      trivial
    · split <;> (rintro j ⟨⟩)
      · exact known
      · trivial

theorem advance_asked (h : s.Asked) (hk : s.Kept) (hj : s.job = some j) (hs : s.advance j = some s') : s'.Asked := by
  cases j <;> simp only [State.advance, Option.some.injEq, reduceCtorEq] at hs <;> subst hs
  case looking run => exact look_asked run
  case answered    => exact check_asked h hk hj
  case pausing     => rintro j ⟨⟩
  case leaving     => rintro j ⟨⟩
  all_goals
    rintro j ⟨⟩
    trivial

theorem spawnJob_asked (h : s.Asked) (run : RunId) (kept : ∀ j, s.Holds j → s'.Holds j)
    (job : s'.job = (s.spawnJob run).job) : s'.Asked := by
  intro j hj
  rw [job, State.spawnJob] at hj
  cases hc : s.job
  case none =>
    rw [hc] at hj
    cases hj
    trivial
  case some j' =>
    rw [hc] at hj
    cases hj
    exact kept _ (h _ hc)

theorem go_job (hs : s.go i b = some s') : s'.job = s.job ∨ ∃ run, s'.job = (s.spawnJob run).job := by
  rw [State.go, Option.bind_eq_bind, Option.bind_eq_some_iff] at hs
  obtain ⟨c, -, hs⟩ := hs
  cases c
  case starting  => dsimp only at hs; split at hs <;> cases hs; exact .inl rfl
  case resuming  =>
    dsimp only at hs
    split at hs
    · cases hs; exact .inl rfl
    · split at hs <;> cases hs <;> exact .inl rfl
  case writing _ _ _ after => cases after <;> cases hs <;> exact .inl rfl
  case releasing           => cases hs; exact .inl rfl
  case spawning run        => cases hs; exact .inr ⟨run, rfl⟩

theorem step_asked (h : s.Asked) (hk : s.Kept) (ok : s.lossless a) (hs : s.step a = some s') : s'.Asked := by
  have kept {j : Job} (hj : s.Holds j) : s'.Holds j := holds_kept ok hs hj
  have same (job : s'.job = s.job) : s'.Asked := fun j hj => kept (h j (job ▸ hj))
  cases a <;> simp only [State.step, Option.some.injEq] at hs
  case go =>
    obtain job | ⟨run, job⟩ := go_job hs
    · exact same job
    · exact spawnJob_asked h run (fun _ => kept) job
  case spawn =>
    split at hs <;> cases hs
    exact spawnJob_asked h _ (fun _ => kept) rfl
  case advance =>
    obtain ⟨j, hj, hs⟩ := Option.bind_eq_some_iff.mp hs
    exact advance_asked h hk hj hs
  case ready =>
    obtain ⟨j, hj, hs⟩ := Option.bind_eq_some_iff.mp hs
    have known := h j hj
    simp only [State.ready] at hs
    split at hs
    · split at hs <;> cases hs <;> (rintro j ⟨⟩)
      · trivial
      · exact known
    · cases hs
      rintro j ⟨⟩
      trivial
    · cases hs
  case answer =>
    split at hs <;> cases hs
    case h_1 hj =>
      rintro j ⟨⟩
      exact h _ hj
  case agentStops =>
    split at hs <;> cases hs <;>
      (rintro j ⟨⟩
       trivial)
  case gleaned =>
    split at hs <;> cases hs
    rintro j ⟨⟩
    trivial
  case jobFails why =>
    obtain ⟨j, _, rfl⟩ := Option.map_eq_some_iff.mp hs
    cases j
    case leaving => rintro j ⟨⟩
    all_goals
      rintro j ⟨⟩
      trivial
  case crash =>
    subst hs
    rintro j ⟨⟩
  case reinforce =>
    split at hs <;> cases hs
    case h_1 daily day ids applied _ =>
      refine same (List.foldl_preserves (P := fun t : State => t.job = s.job) (fun id _ h => ?_) rfl)
      rw [State.reinforceOne]
      split <;> exact h
  case create =>
    split at hs <;> cases hs
    case h_1 daily day _ =>
      refine same ?_
      rw [State.create]
      split <;> rfl
  case tick today settled due =>
    obtain ⟨_, eq⟩ := tick_eq s today settled due
    exact same (hs ▸ eq ▸ rfl)
  case matched => split at hs <;> cases hs; exact same rfl
  case count   => split at hs <;> cases hs; exact same rfl
  all_goals exact same (hs ▸ rfl)

end Asked

theorem advance_kept (h : s.Kept) (asked : s.Asked) (ok : s.lossless .advance) (hj : s.job = some j)
    (hs : s.advance j = some s') : s'.Kept := by
  obtain ⟨unbroken, dropped⟩ := Bool.and_eq_true_iff.mp ok
  cases j <;> simp only [State.advance, Option.some.injEq, reduceCtorEq] at hs <;> subst hs
  case looking  => exact look_kept h hj
  case answered => exact check_kept h hj
  case merging run batch pairs changes =>
    obtain ⟨hruns, hpairs, hcomps⟩ := Db.foldl_addHealth_frame s.db Prod.fst 0 1 (against changes)
    refine h.through_batch .merged (by rintro ⟨⟩) (.of_eq hcomps) (.of_eq hcomps) hpairs hruns rfl rfl rfl rfl
      (by simp [hj]) (by simp [hj]) fun t ht => ?_
    rcases List.mem_append.mp ht with ht | ht
    · obtain ⟨id, hid, rfl⟩ := List.mem_map.mp ht
      exact .inr ⟨unbroken_merging unbroken hj id hid, rfl, rfl⟩
    · exact .inl ht
  case finishing run batch ending =>
    refine h.finished hj (fun he p hp hr _ => ?_) rfl
    subst he
    have through := (asked _ hj).right.resolve_right (by simpa only [hj, decide_eq_true_eq] using dropped)
    exact mem_through.mp through p hp hr
  case ending run  =>
    exact h.written run .done none rfl rfl rfl rfl (by simp) (.inr (.inr (h.through run (.inr hj)).right))
      (fun r hr => hr.imp_right fun hl => by simp [hj] at hl) (by simp) (fun _ _ _ _ => .inl) (by simp [hj])
  case noting run  => exact h.moved rfl rfl rfl rfl rfl (by simp) (by simp [hj]) (by simp) (by simp [hj])
  case pausing run why =>
    exact h.written run .paused (some why) rfl rfl rfl rfl (by simp) (.inl rfl)
      (fun r hr => hr.imp_right fun hl => by simp [hj] at hl) (by simp) (fun _ _ _ _ => .inl) (by simp [hj])
  case failing run why =>
    exact h.written run .failed (some why) rfl rfl rfl rfl (by simp) (.inr (.inl (.inr rfl)))
      (fun r hr => hr.imp_right fun hl => by simp [hj] at hl) (by simp) (fun _ _ _ _ => .inl) (by simp [hj])
  case leaving run =>
    exact h.released run rfl rfl rfl rfl (.inr ⟨rfl, hj⟩) (by simp [hj]) (fun _ _ hm => hm) fun _ _ _ _ hm => hm

-- A call that is to stop a run is to give its pairs back, too.
def Call.Releases : Call → Prop
  | .writing _ status _ after => status.isActive ∨ after = .release
  | _                         => True

theorem called (h : s.Kept) (call : Call) (hr : call.Releases) : { s with calls := s.calls ++ [call] }.Kept := by
  refine h.aside (.of_eq rfl) (.of_eq rfl) rfl rfl rfl rfl rfl rfl (fun _ hm => .inr (List.mem_append_left _ hm)) ?_
  intro run status error after hm
  rcases List.mem_append.mp hm with hm | hm
  · exact .inl hm
  · obtain rfl := List.mem_singleton.mp hm
    exact .inr hr

theorem call_kept (h : s.Kept) {f : RunRow → Option Call} (hf : ∀ r, ∀ c ∈ f r, c.Releases) : (s.call f).Kept := by
  rw [State.call]
  cases hc : s.db.activeRun.bind f
  case none      => exact h
  case some call =>
    obtain ⟨r, _, hr⟩ := Option.bind_eq_some_iff.mp hc
    exact called h call (hf r call hr)

theorem tick_kept (h : s.Kept) (today : Day) (settled due : Bool) : (s.tick today settled due).Kept := by
  rw [State.tick]
  split
  · refine call_kept h fun r c hc => ?_
    split at hc
    · cases hc; exact .inr rfl
    · split at hc
      · cases hc; exact trivial
      · split at hc <;> cases hc
        exact trivial
  · split
    · exact h
    · exact called h _ trivial

theorem step_kept (h : s.Kept) (hc : s.Counted) (asked : s.Asked) (ok : s.lossless a) (hs : s.step a = some s') :
    s'.Kept := by
  have unbroken := (Bool.and_eq_true_iff.mp ok).left
  have more := (Bool.and_eq_true_iff.mp ok).right
  have same : ∀ run, Call.releasing run ∈ s.calls → s.db.through run ∨ .releasing run ∈ s.calls := fun _ hm => .inr hm
  cases a <;> simp only [State.step, Option.some.injEq] at hs
  case compose createdAt =>
    exact hs ▸ h.aside (evolves_insertComposition createdAt) (reviews_insertComposition createdAt) rfl rfl rfl rfl rfl rfl
      same fun _ _ _ _ => .inl
  case discard id =>
    exact hs ▸ h.aside (evolves_draftGone id) (reviews_draftGone id) rfl rfl rfl rfl rfl rfl same fun _ _ _ _ => .inl
  case purge old =>
    exact hs ▸ h.aside (evolves_purge old) (reviews_purge old) rfl rfl rfl rfl rfl rfl same fun _ _ _ _ => .inl
  case go    => exact go_kept h unbroken hs
  case drop i =>
    refine hs ▸ h.aside (.of_eq rfl) (.of_eq rfl) rfl rfl rfl rfl rfl rfl (fun run hm => ?_)
      fun _ _ _ _ hm => .inl (List.mem_of_mem_eraseIdx hm)
    by_cases hi : s.calls[i]? = some (.releasing run)
    case pos => exact .inl (by simpa only [hi] using more)
    case neg => exact .inr (mem_eraseIdx_of_ne hm hi)
  case matched found =>
    split at hs <;> cases hs
    obtain ⟨hr, hp⟩ := Db.matchAll_frame s.db found
    exact h.aside (evolves_matchAll found) (reviews_matchAll found) hp hr rfl rfl rfl rfl same fun _ _ _ _ => .inl
  case reinforce =>
    split at hs <;> cases hs
    case h_1 daily day ids applied hst =>
      have : (ids.foldl (State.reinforceOne applied) s).Kept ∧ (ids.foldl (State.reinforceOne applied) s).Counted ∧
          (ids.foldl (State.reinforceOne applied) s).start = s.start := List.foldl_preserves
        (P := fun t : State => t.Kept ∧ t.Counted ∧ t.start = s.start) ?_ ⟨h, hc, rfl⟩
      · exact this.left.aside (.of_eq rfl) (.of_eq rfl) rfl rfl rfl rfl rfl rfl (fun _ hm => .inr hm) fun _ _ _ _ => .inl
      · rintro t id hid ⟨ht, htc, hts⟩
        have := htc.unchanged daily day ids applied (hts.trans hst) id hid
        refine ⟨ht.reinforced applied this, htc.reinforced applied this, ?_⟩
        rw [State.reinforceOne]
        split <;> exact hts
  case create => split at hs <;> cases hs; exact h.created _ _
  case count  =>
    split at hs <;> cases hs
    exact h.aside (.of_eq rfl) (.of_eq rfl) rfl rfl rfl rfl rfl rfl same fun _ _ _ _ => .inl
  case spawn  =>
    split at hs <;> cases hs
    refine h.frame (.of_eq rfl) (.of_eq rfl) rfl rfl rfl rfl (fun r hr => ⟨r, hr, rfl⟩) (fun r b e hj => ?_)
      (fun p _ _ ha => ?_) (fun r hj => ?_) (fun _ _ _ _ => .inl) (fun r b hj => ?_)
    · cases hjob : s.job <;> simp [State.spawnJob, hjob] at hj ⊢; exact .inr hj
    · refine ha.imp_right fun hr => hr.imp_right fun hj => ?_
      simp [State.spawnJob, hj]
    · cases hjob : s.job <;> simp [State.spawnJob, hjob] at hj ⊢
      exact hj.imp_right .inl
    · simp [State.spawnJob, hj]
  case advance =>
    obtain ⟨j, hj, hs⟩ := Option.bind_eq_some_iff.mp hs
    exact advance_kept h asked ok hj hs
  case ready =>
    obtain ⟨j, hj, hs⟩ := Option.bind_eq_some_iff.mp hs
    simp only [State.ready] at hs
    split at hs
    · split at hs <;> cases hs
      · exact h.through_batch .nothing (by rintro ⟨⟩) (.of_eq rfl) (.of_eq rfl) rfl rfl rfl rfl rfl rfl
          (by simp [hj]) (by simp [hj]) fun t ht => .inl ht
      · exact h.moved rfl rfl rfl rfl rfl (by simp) (by simp [hj]) (by simp) (by simp [hj])
    · cases hs; exact h.moved rfl rfl rfl rfl rfl (by simp) (by simp [hj]) (by simp) (by simp [hj])
    · cases hs
  case answer =>
    split at hs <;> cases hs
    case h_1 hj => exact h.moved rfl rfl rfl rfl rfl (by simp) (by simp [hj]) (by simp) (by simp [hj])
  case agentStops =>
    split at hs <;> cases hs
    case h_1 hj => exact h.moved rfl rfl rfl rfl rfl (by simp) (by simp [hj]) (by simp) (by simp [hj])
    case h_2 hj => exact h.moved rfl rfl rfl rfl rfl (by simp) (by simp [hj]) (by simp) (by simp [hj])
  case gleaned =>
    split at hs <;> cases hs
    case h_1 run hj =>
      refine h.moved rfl rfl rfl rfl rfl (by simp) (by simp [hj]) (fun r hg => .inl ?_) (by simp [hj])
      obtain rfl : run = r := by simpa using hg
      exact hj
  case jobFails why =>
    obtain ⟨j, hj, rfl⟩ := Option.map_eq_some_iff.mp hs
    have merged := unbroken_stops unbroken rfl
    have leaving : ∀ run, s.job = some (.leaving run) → s.db.through run := fun run hl => by
      simpa only [hl] using more
    cases j <;> exact h.moved rfl rfl rfl rfl rfl (by rintro _ _ _ ⟨⟩) (fun run hl => .inl (leaving run hl)) (by simp [State.jobFails])
      fun r b hf => absurd hf (merged r b)
  case crash =>
    obtain ⟨released, left⟩ := Bool.and_eq_true_iff.mp more
    refine hs ▸ h.frame (.of_eq rfl) (.of_eq rfl) rfl rfl rfl rfl (fun r hr => ⟨r, hr, rfl⟩) (by simp) (fun p hp hd ha => ?_)
      (by simp) (by simp) fun r b hf => absurd hf (unbroken_stops unbroken rfl r b)
    refine ha.imp_right fun hr => ?_
    have ht : s.db.through p.runId := by
      rcases hr with hm | hl
      · exact List.all_eq_true.mp released _ hm
      · simpa only [hl] using left
    rw [mem_through.mp ht p hp rfl] at hd
    cases hd
  case tick today settled due => exact hs ▸ tick_kept h today settled due
  case runNow today => exact hs ▸ called h (.starting false today) trivial
  case pause        => exact hs ▸ call_kept h fun r c hc => by cases hc; exact .inl rfl
  case resume       => exact hs ▸ call_kept h fun r c hc => by cases hc; exact trivial
  case cancel       => exact hs ▸ call_kept h fun r c hc => by cases hc; exact .inr rfl
  all_goals
    exact hs ▸ h.aside (.of_eq rfl) (.of_eq rfl) rfl rfl rfl rfl rfl rfl same fun _ _ _ _ => .inl

end Kaluta.Review
