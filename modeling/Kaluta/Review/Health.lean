import Kaluta.Review.OneRun

-- The health of the guide's entries: what each pair adds to it, over runs with crashes and stops.
namespace Kaluta.Review

variable {s s' : State} {a : Action} {db db' : Db} {id : CompositionId}

-- The run whose pairs a step gives back.
def State.releases (s : State) : Action → Option RunId
  | .go i _   =>
    match s.calls[i]? with
    | some (.releasing run) => some run
    | _                     => none
  | .advance  =>
    match s.job with
    | some (.leaving run) => some run
    | _                   => none
  | _         => none

def Action.isAdvance : Action → Bool
  | .advance => true
  | _        => false

-- The job ends before its next transaction, or that transaction fails.
def Action.stopsJob : Action → Bool
  | .crash | .jobFails _ => true
  | _                    => false

-- An answer is merged as long as its run holds the batch, and nothing comes between its merge and the batch's end.
def State.unbroken (s : State) (a : Action) : Bool :=
  match s.job with
  | some (.merging run batch pairs _)   =>
    !a.isAdvance || pairs.all fun id => { runId := run, compositionId := id, batch } ∈ s.db.runPairs.rows
  | some (.finishing run _ .merged)     => !a.stopsJob && s.releases a ≠ some run
  | _                                   => true

def Db.healthOf (db : Db) (entry : EntryId) : Nat × Nat :=
  (db.health.find? entry).elim (0, 0) fun h => (h.unchanged, h.overridden)

theorem healthOf_addHealth (entry e : EntryId) (u o : Nat) :
    (db.addHealth entry u o).healthOf e =
      if e = entry then ((db.healthOf e).1 + u, (db.healthOf e).2 + o) else db.healthOf e := by
  simp only [Db.healthOf, Db.addHealth, Table.find?_upsert]
  split
  case isTrue  => cases db.health.find? e <;> simp
  case isFalse => rfl

theorem healthOf_foldl (db : Db) (entry : α → EntryId) (as : List α) (e : EntryId) (u o : Nat) :
    (as.foldl (fun db a => db.addHealth (entry a) u o) db).healthOf e =
      ((db.healthOf e).1 + u * as.countP (entry · = e), (db.healthOf e).2 + o * as.countP (entry · = e)) := by
  induction as generalizing db
  case nil => simp
  case cons a as ih =>
    rw [List.foldl_cons, ih, healthOf_addHealth, List.countP_cons]
    by_cases he : e = entry a
    case pos => simp [he, Nat.mul_add, Nat.add_assoc, Nat.add_comm, Nat.add_left_comm]
    case neg => simp [he, Ne.symm he]

-- A record of which something holds.
def Db.Has (db : Db) (id : CompositionId) (P : Composition → Prop) : Prop :=
  ∃ c ∈ db.compositions, c.id = id ∧ P c

theorem Db.Has.unique {P Q : Composition → Prop} (h : db.Has id P) (h' : db.Has id Q) :
    ∃ c ∈ db.compositions, c.id = id ∧ P c ∧ Q c := by
  obtain ⟨c, hc, hid, hp⟩ := h
  obtain ⟨c', hc', hid', hq⟩ := h'
  have : c = c' := Table.eq_of_key_eq hc hc' (hid.trans hid'.symm)
  exact ⟨c, hc, hid, hp, this ▸ hq⟩

-- Records that are no longer waiting stay as they are.
def Db.Evolves (db db' : Db) : Prop :=
  ∀ c ∈ db.compositions, c.status ≠ .waiting → db'.Has c.id fun c' => c'.distance = c.distance ∧ c'.status = c.status

theorem Db.Evolves.of_eq (h : db'.compositions = db.compositions) : db.Evolves db' :=
  fun c hc _ => ⟨c, h ▸ hc, rfl, rfl, rfl⟩

theorem Db.Evolves.trans {db₁ db₂ db₃ : Db} (h : db₁.Evolves db₂) (h' : db₂.Evolves db₃) : db₁.Evolves db₃ := by
  intro c hc hw
  obtain ⟨c', hc', hid, hd, hst⟩ := h c hc hw
  obtain ⟨c'', hc'', hid', hd', hst'⟩ := h' c' hc' (hst ▸ hw)
  exact ⟨c'', hc'', hid'.trans hid, hd'.trans hd, hst'.trans hst⟩

-- An update of waiting records, or of other columns.
theorem Db.Evolves.update {p : Composition → Bool} {f : Composition → Composition} (hf : ∀ c, (f c).id = c.id)
    (h : db'.compositions = db.compositions.update p f hf)
    (keeps : ∀ c, p c → c.status ≠ .waiting → (f c).distance = c.distance ∧ (f c).status = c.status) :
    db.Evolves db' := by
  intro c hc hw
  rw [Db.Has, h]
  refine Table.exists_mem_update hf hc
    (P := fun c' => c'.id = c.id ∧ c'.distance = c.distance ∧ c'.status = c.status) ?_
  split
  case isTrue hp => exact ⟨hf c, keeps c hp hw⟩
  case isFalse   => exact ⟨rfl, rfl, rfl⟩

theorem evolves_insertComposition (createdAt : Millis) : db.Evolves (db.insertComposition createdAt) :=
  fun c hc _ => ⟨c, by simp [Db.insertComposition, hc], rfl, rfl, rfl⟩

theorem evolves_draftGone (id : CompositionId) : db.Evolves (db.draftGone id) := by
  refine .update (f := ({ · with status := .discarded })) (fun _ => rfl) rfl fun c hp hw => ?_
  exact absurd (of_decide_eq_true hp).right hw

theorem evolves_setMatched (id : CompositionId) (distance : Nat) : db.Evolves (db.setMatched id distance) := by
  refine .update (f := ({ · with status := .matched, distance })) (fun _ => rfl) rfl fun c hp hw => ?_
  exact absurd (of_decide_eq_true hp).right hw

theorem evolves_setUnmatched (id : CompositionId) : db.Evolves (db.setUnmatched id) := by
  refine .update (f := ({ · with status := .unmatched })) (fun _ => rfl) rfl fun c hp hw => ?_
  exact absurd (of_decide_eq_true hp).right hw

theorem evolves_purge (old : List CompositionId) : db.Evolves (db.purge old) :=
  .update (f := ({ · with texts := false })) (fun _ => rfl) rfl fun _ _ _ => ⟨rfl, rfl⟩

theorem evolves_matchAll (found : List (CompositionId × Option Nat)) : db.Evolves (db.matchAll found) := by
  refine List.foldl_preserves (P := fun db' => db.Evolves db') ?_ (.of_eq rfl)
  rintro db' ⟨id, outcome⟩ _ ih
  cases outcome
  case none   => exact ih.trans (evolves_setUnmatched id)
  case some d _ => exact ih.trans (evolves_setMatched id d)

-- The pairs that runs took were changed by the user, each is taken once at a time, and it is reviewed once its
-- batch is through.
structure Db.Held (db : Db) : Prop where
  once    : ∀ p ∈ db.runPairs, ∀ p' ∈ db.runPairs, p.compositionId = p'.compositionId → p = p'
  changed : ∀ p ∈ db.runPairs, db.Has p.compositionId fun c =>
    UNCHANGED < c.distance ∧ c.status = if p.done then .reviewed else .matched

-- Each pair that was counted is reviewed, or its batch is about to be.
structure State.Counted (s : State) : Prop where
  held     : s.db.Held
  once     : (s.counts.map fun c => (c.entryId, c.pair)).Nodup
  health   : ∀ e, s.db.healthOf e =
    (s.counts.countP fun c => c.entryId = e && c.unchanged, s.counts.countP fun c => c.entryId = e && !c.unchanged)
  counted  : ∀ k ∈ s.counts, s.db.Has k.pair (fun c => c.status = .reviewed) ∨
    ∃ run batch, s.job = some (.finishing run batch .merged) ∧
      { runId := run, compositionId := k.pair, batch } ∈ s.db.runPairs
  evidence : ∀ run batch pairs changes, s.job = some (.merging run batch pairs changes) →
    ∀ c ∈ changes, ∀ id ∈ c.evidence, id ∈ pairs
  unchanged : ∀ daily day ids applied, s.start = some (.reinforcing daily day ids applied) →
    ∀ id ∈ ids, s.db.Has id fun c => c.distance ≤ UNCHANGED ∧ c.status ≠ .waiting

theorem Db.Has.evolve {P : Composition → Prop} (h : db.Has id P) (he : db.Evolves db')
    (hw : ∀ c, P c → c.status ≠ .waiting)
    (hP : ∀ c c' : Composition, c'.distance = c.distance → c'.status = c.status → P c → P c') : db'.Has id P := by
  obtain ⟨c, hc, rfl, hp⟩ := h
  obtain ⟨c', hc', hid, hd, hst⟩ := he c hc (hw c hp)
  exact ⟨c', hc', hid, hP c c' hd hst hp⟩

theorem Db.Held.evolve (h : db.Held) (he : db.Evolves db') (pairs : db'.runPairs = db.runPairs) : db'.Held where
  once    := pairs ▸ h.once
  changed p hp := by
    refine (h.changed p (pairs ▸ hp)).evolve he (fun c hc => ?_) fun c c' hd hst hc => ⟨hd ▸ hc.left, hst ▸ hc.right⟩
    rw [hc.right]
    split <;> simp

theorem Db.Has.reviewed_evolve (h : db.Has id fun c => c.status = .reviewed) (he : db.Evolves db') :
    db'.Has id fun c => c.status = .reviewed :=
  h.evolve he (fun _ hc => by simp [hc]) fun _ _ _ hst hc => hst.trans hc

theorem Db.Has.unchanged_evolve (h : db.Has id fun c => c.distance ≤ UNCHANGED ∧ c.status ≠ .waiting)
    (he : db.Evolves db') : db'.Has id fun c => c.distance ≤ UNCHANGED ∧ c.status ≠ .waiting :=
  h.evolve he (fun _ hc => hc.right) fun _ _ hd hst hc => ⟨hd ▸ hc.left, hst ▸ hc.right⟩

namespace State.Counted

-- A step that takes no pairs, ends no batch and counts nothing.
theorem frame (h : s.Counted) (comps : s.db.Evolves s'.db) (pairs : s'.db.runPairs = s.db.runPairs)
    (health : s'.db.health = s.db.health) (counts : s'.counts = s.counts)
    (job : ∀ run batch, s.job = some (.finishing run batch .merged) → s'.job = s.job)
    (evidence : ∀ run batch pairs changes, s'.job = some (.merging run batch pairs changes) →
      ∀ c ∈ changes, ∀ id ∈ c.evidence, id ∈ pairs)
    (start : ∀ daily day ids applied, s'.start = some (.reinforcing daily day ids applied) →
      s.start = some (.reinforcing daily day ids applied) ∨
      ∀ id ∈ ids, s'.db.Has id fun c => c.distance ≤ UNCHANGED ∧ c.status ≠ .waiting) : s'.Counted where
  held     := h.held.evolve comps pairs
  once     := counts ▸ h.once
  health e := by rw [Db.healthOf, health, counts]; exact h.health e
  counted k hk := by
    rcases h.counted k (counts ▸ hk) with hr | ⟨run, batch, hj, hp⟩
    · exact .inl (hr.reviewed_evolve comps)
    · exact .inr ⟨run, batch, (job run batch hj).trans hj, pairs ▸ hp⟩
  evidence := evidence
  unchanged daily day ids applied hs id hid := by
    rcases start daily day ids applied hs with hs | hs
    · exact (h.unchanged daily day ids applied hs id hid).unchanged_evolve comps
    · exact hs id hid

-- A step of which the job and the tables know nothing.
theorem aside (h : s.Counted) (comps : s.db.Evolves s'.db) (pairs : s'.db.runPairs = s.db.runPairs)
    (health : s'.db.health = s.db.health) (counts : s'.counts = s.counts) (job : s'.job = s.job)
    (start : s'.start = none ∨ s'.start = s.start ∨
      ∀ daily day ids applied, s'.start ≠ some (.reinforcing daily day ids applied)) : s'.Counted := by
  refine h.frame comps pairs health counts (fun _ _ _ => job) (fun run batch ps cs hj => ?_) fun _ _ _ _ hs => ?_
  · exact h.evidence run batch ps cs (job ▸ hj)
  · rcases start with hn | hn | hn
    · rw [hn] at hs; cases hs
    · exact .inl (hn ▸ hs)
    · exact absurd hs (hn _ _ _ _)

theorem released (h : s.Counted) (run : RunId) (comps : s'.db = s.db.releasePairs run) (counts : s'.counts = s.counts)
    (job : s'.job = s.job ∨ s'.job = none ∧ ∀ run' batch, s.job ≠ some (.finishing run' batch .merged))
    (other : ∀ run' batch, s.job = some (.finishing run' batch .merged) → run' ≠ run)
    (start : s'.start = s.start) : s'.Counted where
  held := by
    rw [comps]
    refine ⟨fun p hp p' hp' => ?_, fun p hp => ?_⟩
    · rw [Db.releasePairs, Table.mem_delete] at hp hp'
      exact h.held.once p hp.left p' hp'.left
    · rw [Db.releasePairs, Table.mem_delete] at hp
      exact h.held.changed p hp.left
  once     := counts ▸ h.once
  health e := by rw [counts, comps]; exact h.health e
  counted k hk := by
    rcases h.counted k (counts ▸ hk) with hr | ⟨run', batch, hj, hp⟩
    · exact .inl (comps ▸ hr)
    · have hsame : s'.job = s.job := job.resolve_right fun hn => hn.right run' batch hj
      refine .inr ⟨run', batch, hsame.trans hj, ?_⟩
      rw [comps, Db.releasePairs, Table.mem_delete]
      exact ⟨hp, by simp [other run' batch hj]⟩
  evidence run batch pairs changes hj := by
    rcases job with hsame | ⟨hn, _⟩
    · exact h.evidence run batch pairs changes (hsame ▸ hj)
    · rw [hn] at hj; cases hj
  unchanged daily day ids applied hs := by
    rw [start] at hs
    rw [comps]
    exact h.unchanged daily day ids applied hs

theorem mem_pairsOf {run : RunId} {batch : Nat} :
    id ∈ db.pairsOf run batch ↔ ∃ p ∈ db.runPairs, p.runId = run ∧ p.batch = batch ∧ p.compositionId = id := by
  simp [Db.pairsOf, Table.mem_rows, and_assoc]

-- Reviewing some records that are waiting for it keeps what was reviewed, and what was sent as written.
theorem has_markReviewed (ids : List CompositionId) {P : Composition → Prop} (h : db.Has id P) :
    (db.markReviewed ids).Has id fun c => ∃ c₀ ∈ db.compositions, c₀.id = id ∧ P c₀ ∧ c.distance = c₀.distance ∧
      c.status = if id ∈ ids then .reviewed else c₀.status := by
  obtain ⟨c, hc, rfl, hp⟩ := h
  refine Table.exists_mem_update (p := (·.id ∈ ids)) (f := ({ · with status := .reviewed })) (fun _ => rfl) hc
    (P := fun c' => c'.id = c.id ∧ ∃ c₀ ∈ db.compositions, c₀.id = c.id ∧ P c₀ ∧ c'.distance = c₀.distance ∧
      c'.status = if c.id ∈ ids then .reviewed else c₀.status) ?_
  by_cases hm : c.id ∈ ids
  case pos => simpa [hm] using ⟨c, hc, rfl, hp, rfl⟩
  case neg => simpa [hm] using ⟨c, hc, rfl, hp, rfl, rfl⟩

theorem has_markReviewed_reviewed {ids : List CompositionId} (h : db.Has id fun c => c.status = .reviewed) :
    (db.markReviewed ids).Has id fun c => c.status = .reviewed := by
  obtain ⟨c, hc, hid, c₀, _, _, h₀, _, hst⟩ := has_markReviewed ids h
  exact ⟨c, hc, hid, by simp [hst, h₀]⟩

theorem has_markReviewed_unchanged {ids : List CompositionId}
    (h : db.Has id fun c => c.distance ≤ UNCHANGED ∧ c.status ≠ .waiting) :
    (db.markReviewed ids).Has id fun c => c.distance ≤ UNCHANGED ∧ c.status ≠ .waiting := by
  obtain ⟨c, hc, hid, c₀, _, _, h₀, hd, hst⟩ := has_markReviewed ids h
  refine ⟨c, hc, hid, hd ▸ h₀.left, ?_⟩
  rw [hst]
  split
  · simp
  · exact h₀.right

theorem finished (h : s.Counted) (hj : s.job = some (.finishing run batch ending))
    (hs : s' = { s with db := s.db.finishBatch run batch, job := some (.looking run) }) : s'.Counted := by
  subst hs
  refine ⟨⟨fun p hp p' hp' heq => ?_, fun p hp => ?_⟩, h.once, h.health, fun k hk => ?_, (by simp), ?_⟩
  · simp only [Db.finishBatch, Db.markReviewed_runPairs, Table.mem_update] at hp hp'
    rcases hp with ⟨hp, hn⟩ | ⟨p, hp, hy, rfl⟩ <;> rcases hp' with ⟨hp', hn'⟩ | ⟨p', hp', hy', rfl⟩
    · exact h.held.once p hp p' hp' heq
    · rw [h.held.once p hp p' hp' heq, hy'] at hn; cases hn
    · rw [h.held.once p hp p' hp' heq, hn'] at hy; cases hy
    · rw [h.held.once p hp p' hp' heq]
  · simp only [Db.finishBatch, Db.markReviewed_runPairs, Table.mem_update] at hp
    rcases hp with ⟨hp, hn⟩ | ⟨p, hp, hy, rfl⟩
    · obtain ⟨c, hc, hid, c₀, _, _, h₀, hd, hst⟩ :=
        has_markReviewed (s.db.pairsOf run batch) (h.held.changed p hp)
      refine ⟨c, hc, hid, hd ▸ h₀.left, ?_⟩
      have hout : p.compositionId ∉ s.db.pairsOf run batch := fun hin => by
        obtain ⟨p', hp', hr, hb, hid'⟩ := mem_pairsOf.mp hin
        rw [← h.held.once p' hp' p hp hid'] at hn
        simp [hr, hb] at hn
      rw [hst, if_neg hout, h₀.right]
    · obtain ⟨c, hc, hid, c₀, _, _, h₀, hd, hst⟩ :=
        has_markReviewed (s.db.pairsOf run batch) (h.held.changed p hp)
      obtain ⟨hr, hb⟩ := of_decide_eq_true hy
      refine ⟨c, hc, hid, hd ▸ h₀.left, ?_⟩
      rw [hst, if_pos (mem_pairsOf.mpr ⟨p, hp, hr, hb, rfl⟩)]
      rfl
  · rcases h.counted k hk with hr | ⟨run', batch', hj', hp⟩
    · exact .inl (has_markReviewed_reviewed hr)
    · rw [hj] at hj'
      obtain ⟨rfl, rfl, rfl⟩ : run = run' ∧ batch = batch' ∧ ending = .merged := by simpa using hj'
      obtain ⟨c, hc, hid, c₀, _, _, h₀, hd, hst⟩ :=
        has_markReviewed (s.db.pairsOf run batch) (h.held.changed _ hp)
      exact .inl ⟨c, hc, hid, hst.trans (if_pos (mem_pairsOf.mpr ⟨_, hp, rfl, rfl, rfl⟩))⟩
  · intro daily day ids applied hst id hid
    exact has_markReviewed_unchanged (h.unchanged daily day ids applied hst id hid)

theorem mem_pairsToCompare {limit : Nat} (h : id ∈ db.pairsToCompare limit) :
    ∃ c ∈ db.compositions, c.id = id ∧ db.isToCompare c := by
  have h := List.mem_of_mem_take h
  obtain ⟨c, hc, rfl⟩ := List.mem_map.mp h
  have := List.mem_filter.mp ((List.mem_insertionSort _).mp hc)
  exact ⟨c, this.left, rfl, this.right⟩

theorem mem_unchangedPairs (h : id ∈ db.unchangedPairs) :
    db.Has id fun c => c.distance ≤ UNCHANGED ∧ c.status ≠ .waiting := by
  obtain ⟨c, hc, rfl⟩ := List.mem_map.mp h
  have ⟨hm, hc⟩ := List.mem_filter.mp ((List.mem_insertionSort _).mp hc)
  have ⟨hst, hd⟩ := of_decide_eq_true hc
  exact ⟨c, hm, rfl, hd, by simp [hst]⟩

theorem mem_insertPairs_of_mem (db : Db) {p : RunPair} (h : p ∈ db.runPairs) (run : RunId) (pairs : List CompositionId) :
    p ∈ (db.insertPairs run pairs).runPairs :=
  List.foldl_preserves (P := fun t => p ∈ t) (fun _ _ h => Table.mem_insertOrIgnore.mpr (.inl h)) h

theorem created (h : s.Counted) (daily : Bool) (day : Day) : (s.create daily day).Counted := by
  rw [State.create]
  split
  case isTrue => exact h.aside (.of_eq rfl) rfl rfl rfl rfl (.inl rfl)
  case isFalse =>
    set pairs := s.db.pairsToCompare (s.db.pairsPerDay.getD DEFAULT_PAIRS_PER_DAY - s.db.pairsTakenOn day)
    have new {p : RunPair} (hp : p ∈ ((s.db.insertRun day daily).1.insertPairs s.db.runs.nextRowid pairs).runPairs) :
        p ∈ s.db.runPairs ∨ p.runId = s.db.runs.nextRowid ∧ p.done = false ∧
          ∃ c ∈ s.db.compositions, c.id = p.compositionId ∧ s.db.isToCompare c := by
      rcases mem_insertPairs hp with hp | ⟨hr, hc, hd⟩
      · exact .inl hp
      · exact .inr ⟨hr, hd, mem_pairsToCompare hc⟩
    have free {c : Composition} (hc : s.db.isToCompare c) {p : RunPair} (hp : p ∈ s.db.runPairs) :
        p.compositionId ≠ c.id := (of_decide_eq_true hc).right.right p hp
    refine ⟨⟨fun p hp p' hp' heq => ?_, fun p hp => ?_⟩, h.once, h.health, fun k hk => ?_, h.evidence, (by simp)⟩
    · rcases new hp with hp₀ | ⟨hr, _, c, _, hc, hfree⟩ <;> rcases new hp' with hp₀' | ⟨hr', _, c', _, hc', hfree'⟩
      · exact h.held.once p hp₀ p' hp₀' heq
      · exact absurd (heq.trans hc'.symm) (free hfree' hp₀)
      · exact absurd (heq.symm.trans hc.symm) (free hfree hp₀')
      · exact Table.eq_of_key_eq hp hp' (Prod.ext (hr.trans hr'.symm) heq)
    · rcases new hp with hp | ⟨_, hd, c, hc, hid, hfree⟩
      · exact h.held.changed p hp
      · obtain ⟨hst, hdist, _⟩ := of_decide_eq_true hfree
        exact ⟨c, hc, hid, hdist, by simp [hst, hd]⟩
    · rcases h.counted k hk with hr | ⟨run, batch, hj, hp⟩
      · exact .inl hr
      · exact .inr ⟨run, batch, hj, mem_insertPairs_of_mem (s.db.insertRun day daily).1 hp _ _⟩

theorem reinforced (h : s.Counted) (applied : CompositionId → List EntryId)
    (hid : s.db.Has id fun c => c.distance ≤ UNCHANGED ∧ c.status ≠ .waiting) : (s.reinforceOne applied id).Counted := by
  rw [State.reinforceOne]
  split
  case isFalse => exact h
  case isTrue hm =>
    obtain ⟨c, hc, hst⟩ := (Option.any_eq_true _ _).mp hm
    have matched : s.db.Has id fun c => c.status = .matched :=
      ⟨c, Table.find?_mem hc, Table.find?_key_eq hc, of_decide_eq_true hst⟩
    have row {p : RunPair} (hp : p ∈ s.db.runPairs) : p.compositionId ≠ id := by
      rintro rfl
      obtain ⟨c, _, _, hlt, hle⟩ := (h.held.changed p hp).unique hid
      exact absurd hle.left (by omega)
    have fresh : ∀ k ∈ s.counts, k.pair ≠ id := by
      rintro k hk rfl
      rcases h.counted k hk with hr | ⟨run, batch, _, hp⟩
      · obtain ⟨c, _, _, hr, hm⟩ := hr.unique matched
        rw [hr] at hm
        cases hm
      · exact row hp rfl
    obtain ⟨-, hpairs, hcomps⟩ := Db.foldl_addHealth_frame s.db (fun e => e) 1 0 (applied id).dedup
    have keep {id' : CompositionId} {P : Composition → Prop} (h : s.db.Has id' P) :
        ((applied id).dedup.foldl (fun db e => db.addHealth e 1 0) s.db).Has id' P := by
      rwa [Db.Has, hcomps]
    refine ⟨⟨?_, fun p hp => ?_⟩, ?_, fun e => ?_, fun k hk => ?_, h.evidence, fun daily day ids applied hs id' hid' => ?_⟩
    · simp only [Db.markReviewed_runPairs, hpairs]
      exact h.held.once
    · simp only [Db.markReviewed_runPairs, hpairs] at hp
      obtain ⟨c, hc, hid, c₀, _, _, h₀, hd, hst⟩ := has_markReviewed [id] (keep (h.held.changed p hp))
      exact ⟨c, hc, hid, hd ▸ h₀.left, by rw [hst, if_neg (by simpa using row hp), h₀.right]⟩
    · rw [List.map_append, List.nodup_append, List.map_map]
      refine ⟨(List.nodup_dedup _).map fun _ _ heq => (Prod.mk.inj heq).left, h.once, ?_⟩
      intro k hk k' hk' heq
      obtain ⟨e, _, rfl⟩ := List.mem_map.mp hk
      obtain ⟨old, hold, rfl⟩ := List.mem_map.mp hk'
      exact fresh old hold (Prod.mk.inj heq).right.symm
    · refine (healthOf_foldl s.db (fun e => e) (applied id).dedup e 1 0).trans ?_
      rw [h.health e, List.countP_append, List.countP_append, List.countP_map, List.countP_map]
      simp [Function.comp_def, Nat.add_comm]
    · rcases List.mem_append.mp hk with hk | hk
      · obtain ⟨e, _, rfl⟩ := List.mem_map.mp hk
        obtain ⟨c, hc, hid, _, _, _, _, _, hst⟩ := has_markReviewed [id] (keep hid)
        exact .inl ⟨c, hc, hid, by simpa using hst⟩
      · rcases h.counted k hk with hr | ⟨run, batch, hj, hp⟩
        · exact .inl (has_markReviewed_reviewed (keep hr))
        · exact .inr ⟨run, batch, hj, by simpa only [Db.markReviewed_runPairs, hpairs] using hp⟩
    · exact has_markReviewed_unchanged (keep (h.unchanged daily day ids applied hs id' hid'))

theorem mem_against {changes : List Change} {p : EntryId × CompositionId} (h : p ∈ against changes) :
    ∃ c ∈ changes, p.2 ∈ c.evidence := by
  rw [against, List.mem_dedup, List.mem_flatMap] at h
  obtain ⟨c, hc, h⟩ := h
  refine ⟨c, hc, ?_⟩
  cases he : c.entry
  case none   => simp [he] at h
  case some e =>
    simp only [he, Option.elim_some, List.mem_map] at h
    obtain ⟨id, hid, rfl⟩ := h
    exact hid

theorem merged (h : s.Counted) (hj : s.job = some (.merging run batch pairs changes))
    (held : ∀ id ∈ pairs, { runId := run, compositionId := id, batch } ∈ s.db.runPairs)
    (hdb : s'.db = (s.merge changes).db) (counts : s'.counts = (s.merge changes).counts)
    (job : s'.job = some (.finishing run batch .merged)) (start : s'.start = s.start) : s'.Counted := by
  obtain ⟨-, hpairs, hcomps⟩ := Db.foldl_addHealth_frame s.db Prod.fst 0 1 (against changes)
  have row (p : EntryId × CompositionId) (hp : p ∈ against changes) :
      { runId := run, compositionId := p.2, batch } ∈ s.db.runPairs := by
    obtain ⟨c, hc, hid⟩ := mem_against hp
    exact held _ (h.evidence run batch pairs changes hj c hc _ hid)
  have reviewed (k : Count) (hk : k ∈ s.counts) : s.db.Has k.pair fun c => c.status = .reviewed := by
    rcases h.counted k hk with hr | ⟨_, _, hj', _⟩
    · exact hr
    · rw [hj] at hj'; cases hj'
  have keep {id' : CompositionId} {P : Composition → Prop} (h : s.db.Has id' P) : s'.db.Has id' P := by
    rw [hdb]; rwa [Db.Has, State.merge, hcomps]
  have same : s'.db.runPairs = s.db.runPairs := by rw [hdb]; exact hpairs
  refine ⟨⟨same ▸ h.held.once, fun p hp => keep (h.held.changed p (same ▸ hp))⟩, ?_, fun e => ?_, fun k hk => ?_, ?_,
    fun daily day ids applied hs id' hid' => keep (h.unchanged daily day ids applied (start ▸ hs) id' hid')⟩
  · rw [counts, State.merge, List.map_append, List.nodup_append, List.map_map]
    refine ⟨(List.nodup_dedup _).map fun _ _ heq => heq, h.once, ?_⟩
    intro k hk k' hk' heq
    obtain ⟨p, hp, rfl⟩ := List.mem_map.mp hk
    obtain ⟨old, hold, rfl⟩ := List.mem_map.mp hk'
    have : p.2 = old.pair := congrArg Prod.snd heq
    obtain ⟨c, _, _, hr, _, hm⟩ := (this ▸ reviewed old hold).unique (h.held.changed _ (row p hp))
    rw [hr] at hm
    cases hm
  · rw [hdb, counts, State.merge, healthOf_foldl, h.health e, List.countP_append, List.countP_append, List.countP_map,
      List.countP_map]
    simp [Function.comp_def, Nat.add_comm]
  · rw [counts, State.merge] at hk
    rcases List.mem_append.mp hk with hk | hk
    · obtain ⟨p, hp, rfl⟩ := List.mem_map.mp hk
      exact .inr ⟨run, batch, job, same ▸ row p hp⟩
    · exact .inl (keep (reviewed k hk))
  · intro _ _ _ _ hj'
    rw [job] at hj'
    cases hj'

-- The job comes to where it merges nothing, from where nothing was merged.
theorem moved (h : s.Counted) (db : s'.db = s.db) (counts : s'.counts = s.counts)
    (job : ∀ run batch, s.job ≠ some (.finishing run batch .merged))
    (merging : ∀ run batch pairs changes, s'.job ≠ some (.merging run batch pairs changes))
    (start : s'.start = none ∨ s'.start = s.start) : s'.Counted := by
  refine h.frame (.of_eq (db ▸ rfl)) (db ▸ rfl) (db ▸ rfl) counts (fun run batch hj => absurd hj (job run batch))
    (fun _ _ _ _ hj => absurd hj (merging _ _ _ _)) fun _ _ _ _ hs => ?_
  rcases start with hn | hn
  · rw [hn] at hs; cases hs
  · exact .inl (hn ▸ hs)

theorem spawned (h : s.Counted) (run : RunId) (db : s'.db = s.db) (counts : s'.counts = s.counts)
    (job : s'.job = (s.spawnJob run).job) (start : s'.start = none ∨ s'.start = s.start) : s'.Counted := by
  refine h.frame (.of_eq (db ▸ rfl)) (db ▸ rfl) (db ▸ rfl) counts ?_ ?_ fun _ _ _ _ hs => ?_
  · intro run' batch hj
    rw [job, State.spawnJob, hj]
    rfl
  · intro run' batch pairs changes hj
    rw [job, State.spawnJob] at hj
    cases hs : s.job
    case none   => simp [hs] at hj
    case some j => exact h.evidence run' batch pairs changes (by simpa [hs] using hj)
  · rcases start with hn | hn
    · rw [hn] at hs; cases hs
    · exact .inl (hn ▸ hs)

end State.Counted

theorem unbroken_merging (h : s.unbroken .advance) (hj : s.job = some (.merging run batch pairs changes)) :
    ∀ id ∈ pairs, { runId := run, compositionId := id, batch } ∈ s.db.runPairs := by
  simpa [State.unbroken, hj, Action.isAdvance, Table.mem_rows] using h

theorem unbroken_stops (h : s.unbroken a) (ha : a.stopsJob) (run : RunId) (batch : Nat) :
    s.job ≠ some (.finishing run batch .merged) := by
  intro hj
  simp [State.unbroken, hj, ha] at h

theorem unbroken_releases (h : s.unbroken a) (ha : s.releases a = some run)
    (hj : s.job = some (.finishing run' batch .merged)) : run' ≠ run := by
  rintro rfl
  simp [State.unbroken, hj, ha] at h

theorem tick_eq (s : State) (today : Day) (settled due : Bool) : ∃ calls, s.tick today settled due = { s with calls } := by
  rw [State.tick]
  split
  · exact ⟨_, rfl⟩
  · split <;> exact ⟨_, rfl⟩

theorem go_counted (h : s.Counted) (ok : s.unbroken (.go i b)) (hs : s.go i b = some s') : s'.Counted := by
  rw [State.go, Option.bind_eq_bind, Option.bind_eq_some_iff] at hs
  obtain ⟨c, hc, hs⟩ := hs
  cases c
  case starting daily day =>
    dsimp only at hs
    split at hs
    · cases hs
    · cases hs
      exact h.aside (.of_eq rfl) rfl rfl rfl rfl (.inr (.inr fun _ _ _ _ => by cases b <;> simp))
  case resuming run retry =>
    dsimp only at hs
    split at hs
    · cases hs; exact h.aside (.of_eq rfl) rfl rfl rfl rfl (.inr (.inl rfl))
    · split at hs <;> (cases hs; exact h.aside (.of_eq rfl) rfl rfl rfl rfl (.inr (.inl rfl)))
  case writing run status error after =>
    cases after <;> (cases hs; exact h.aside (.of_eq rfl) rfl rfl rfl rfl (.inr (.inl rfl)))
  case releasing run =>
    cases hs
    have hr : s.releases (.go i b) = some run := by simp [State.releases, hc]
    exact h.released run rfl rfl (.inl rfl) (fun _ _ hj => unbroken_releases ok hr hj) rfl
  case spawning run  => cases hs; exact h.spawned run rfl rfl rfl (.inr rfl)

theorem look_job (s : State) (run : RunId) :
    (∃ job, s.look run = { s with job }) ∧ ∀ r b ps cs, (s.look run).job ≠ some (.merging r b ps cs) := by
  simp only [State.look]
  split
  · exact ⟨⟨_, rfl⟩, (by simp)⟩
  · split
    · refine ⟨⟨_, rfl⟩, fun r b ps cs => ?_⟩
      cases s.db.activeRun.filter (·.status = .running) <;> simp
    · split <;> exact ⟨⟨_, rfl⟩, by simp⟩

theorem parse_evidence {answer : Answer} (h : parse answer pairs = some changes) :
    ∀ c ∈ changes, ∀ id ∈ c.evidence, id ∈ pairs := by
  obtain ⟨raw, _, rfl⟩ := Option.map_eq_some_iff.mp h
  intro c hc id hid
  obtain ⟨c, _, rfl⟩ := List.mem_map.mp (List.mem_filter.mp hc).left
  exact of_decide_eq_true (List.mem_filter.mp (List.mem_dedup.mp hid)).right

theorem check_counted (h : s.Counted) (hj : s.job = some (.answered run batch pairs attempt answer)) :
    (s.check run batch pairs attempt answer).Counted := by
  have job : ∀ r b, s.job ≠ some (.finishing r b .merged) := by simp [hj]
  simp only [State.check]
  split
  case isTrue  => exact h.moved rfl rfl job (by simp) (.inr rfl)
  case isFalse =>
    split
    case h_1 changes hc =>
      refine h.frame (.of_eq rfl) rfl rfl rfl (fun r b hf => absurd hf (job r b)) ?_ fun _ _ _ _ hs => .inl hs
      intro r b ps cs heq
      cases heq
      exact parse_evidence hc
    case h_2 => split <;> exact h.moved rfl rfl job (by simp) (.inr rfl)

theorem advance_counted (h : s.Counted) (ok : s.unbroken .advance) (hj : s.job = some j)
    (hs : s.advance j = some s') : s'.Counted := by
  cases j <;> simp only [State.advance, Option.some.injEq, reduceCtorEq] at hs <;> subst hs
  case looking run =>
    obtain ⟨⟨job, eq⟩, merging⟩ := look_job s run
    exact h.moved (by rw [eq]) (by rw [eq]) (by simp [hj]) merging (.inr (by rw [eq]))
  case answered        => exact check_counted h hj
  case merging         => exact h.merged hj (unbroken_merging ok hj) rfl rfl rfl rfl
  case finishing       => exact h.finished hj rfl
  case leaving run     =>
    exact h.released run rfl rfl (.inr ⟨rfl, by simp [hj]⟩) (by simp [hj]) rfl
  all_goals
    exact h.frame (.of_eq rfl) rfl rfl rfl (by simp [hj]) (by simp) fun _ _ _ _ hs => .inl hs

theorem step_counted (h : s.Counted) (ok : s.unbroken a) (hs : s.step a = some s') : s'.Counted := by
  cases a <;> simp only [State.step, Option.some.injEq] at hs
  case compose createdAt => exact hs ▸ h.aside (evolves_insertComposition createdAt) rfl rfl rfl rfl (.inr (.inl rfl))
  case discard id        => exact hs ▸ h.aside (evolves_draftGone id) rfl rfl rfl rfl (.inr (.inl rfl))
  case purge old         => exact hs ▸ h.aside (evolves_purge old) rfl rfl rfl rfl (.inr (.inl rfl))
  case tick today settled due =>
    obtain ⟨calls, eq⟩ := tick_eq s today settled due
    exact (hs ▸ eq ▸ h.aside (.of_eq rfl) rfl rfl rfl rfl (.inr (.inl rfl)))
  case go                => exact go_counted h ok hs
  case matched found     =>
    split at hs <;> cases hs
    obtain ⟨-, hp⟩ := Db.matchAll_frame s.db found
    have hh : (s.db.matchAll found).health = s.db.health :=
      List.foldl_preserves (P := fun db' : Db => db'.health = s.db.health)
        (fun f _ h => by rcases f with ⟨_, _ | _⟩ <;> exact h) rfl
    exact h.aside (evolves_matchAll found) hp hh rfl rfl (.inr (.inr (by simp)))
  case count applied     =>
    split at hs <;> cases hs
    refine h.frame (.of_eq rfl) rfl rfl rfl (fun _ _ _ => rfl) h.evidence fun daily day ids applied' hs => .inr ?_
    dsimp only at hs
    split at hs
    · cases hs
    · cases hs; exact fun id hid => State.Counted.mem_unchangedPairs hid
  case reinforce         =>
    split at hs <;> cases hs
    case h_1 daily day ids applied hst =>
      have : (ids.foldl (State.reinforceOne applied) s).Counted ∧
          (ids.foldl (State.reinforceOne applied) s).start = s.start := List.foldl_preserves
        (P := fun t : State => t.Counted ∧ t.start = s.start) ?_ ⟨h, rfl⟩
      · exact this.left.aside (.of_eq rfl) rfl rfl rfl rfl (.inr (.inr (by simp)))
      · rintro t id hid ⟨ht, hts⟩
        refine ⟨ht.reinforced applied (ht.unchanged daily day ids applied (hts.trans hst) id hid), ?_⟩
        rw [State.reinforceOne]
        split <;> exact hts
  case create            => split at hs <;> cases hs; exact h.created _ _
  case spawn             =>
    split at hs <;> cases hs
    exact h.spawned _ rfl rfl rfl (.inl rfl)
  case startFails        => exact hs ▸ h.aside (.of_eq rfl) rfl rfl rfl rfl (.inl rfl)
  case advance           =>
    obtain ⟨j, hj, hs⟩ := Option.bind_eq_some_iff.mp hs
    exact advance_counted h ok hj hs
  case ready             =>
    obtain ⟨j, hj, hs⟩ := Option.bind_eq_some_iff.mp hs
    simp only [State.ready] at hs
    split at hs
    · split at hs <;> (cases hs; exact h.moved rfl rfl (by simp [hj]) (by simp) (.inr rfl))
    · cases hs; exact h.moved rfl rfl (by simp [hj]) (by simp) (.inr rfl)
    · cases hs
  case answer            =>
    split at hs <;> cases hs
    case h_1 hj => exact h.moved rfl rfl (by simp [hj]) (by simp) (.inr rfl)
  case agentStops        =>
    split at hs <;> cases hs
    case h_1 hj => exact h.moved rfl rfl (by simp [hj]) (by simp) (.inr rfl)
    case h_2 hj => exact h.moved rfl rfl (by simp [hj]) (by simp) (.inr rfl)
  case gleaned           =>
    split at hs <;> cases hs
    case h_1 hj => exact h.moved rfl rfl (by simp [hj]) (by simp) (.inr rfl)
  case jobFails why      =>
    obtain ⟨j, _, rfl⟩ := Option.map_eq_some_iff.mp hs
    cases j <;> exact h.moved rfl rfl (unbroken_stops ok rfl) (by rintro _ _ _ _ ⟨⟩) (.inr rfl)
  case crash             => exact hs ▸ h.moved rfl rfl (unbroken_stops ok rfl) (by simp) (.inl rfl)
  all_goals exact hs ▸ h.aside (.of_eq rfl) rfl rfl rfl rfl (.inr (.inl rfl))

theorem counted_start : State.Counted {} where
  held      := ⟨fun p hp => absurd hp (Table.not_mem_empty (a := p)), fun p hp => absurd hp (Table.not_mem_empty (a := p))⟩
  once      := List.nodup_nil
  health _  := rfl
  counted   := nofun
  evidence  := nofun
  unchanged := nofun

-- Along runs in which nothing comes between the merge of an answer and the end of its batch, a pair adds at most
-- one to what an entry's health counts, on one side only.
theorem reachable_counts (h : reviews.Reachable (fun s a => s.unbroken a) s) :
    (s.counts.map fun c => (c.entryId, c.pair)).Nodup ∧
    ∀ e, s.db.healthOf e =
      (s.counts.countP fun c => c.entryId = e && c.unchanged, s.counts.countP fun c => c.entryId = e && !c.unchanged) :=
  have counted : s.Counted :=
    h.invariant (P := State.Counted) (by rintro _ rfl; exact counted_start) fun _ _ _ ih ok hs => step_counted ih ok hs
  ⟨counted.once, counted.health⟩

section Merged

-- The agent says that the user's change to the pair goes against an entry.
def mergedOnce : List Action :=
  started ++ [.advance, .ready true, .answer (some [{ entry := some 7, evidence := [1, 1] }]), .advance, .advance]

-- The app stopped while the agent was asked, and asked again.
theorem reachable_counts_resumed : ∃ s, reviews.Reachable (fun s a => s.unbroken a) s ∧ s.counts.length = 1 ∧
    s.db.healthOf 7 = (0, 1) := by
  have run : (reviews.run (fun s a => s.unbroken a) {} (started ++ [.advance, .ready true, .crash,
      .tick "2025-03-01" true true, .go 0 true, .advance, .ready true,
      .answer (some [{ entry := some 7, evidence := [1, 1] }]), .advance, .advance, .advance])).any
        fun s => s.counts = [{ entryId := 7, pair := 1, unchanged := false }] := by decide
  obtain ⟨s, hs, h⟩ := (Option.any_eq_true _ _).mp run
  have hr := System.Reachable.run (.start rfl) hs
  refine ⟨s, hr, by rw [of_decide_eq_true h]; rfl, ?_⟩
  rw [(reachable_counts hr).right 7, of_decide_eq_true h]
  rfl

-- The app stopped after it merged an answer, and before it wrote that the batch was compared.
theorem counted_twice : ¬∀ s, reviews.Reachable (fun _ _ => True) s →
    (s.counts.map fun c => (c.entryId, c.pair)).Nodup ∧
    ∀ e, s.db.healthOf e =
      (s.counts.countP fun c => c.entryId = e && c.unchanged, s.counts.countP fun c => c.entryId = e && !c.unchanged) := by
  intro claim
  have run : (reviews.run (fun _ _ => True) {} (mergedOnce ++ [.crash, .tick "2025-03-01" true true, .go 0 true,
      .advance, .ready true, .answer (some [{ entry := some 7, evidence := [1] }]), .advance, .advance])).any
        fun s => (s.counts.map fun c => (c.entryId, c.pair)) = [(7, 1), (7, 1)] := by decide
  obtain ⟨s, hs, h⟩ := (Option.any_eq_true _ _).mp run
  have := (claim s (.run (.start rfl) hs)).left
  rw [of_decide_eq_true h] at this
  exact absurd this (by decide)

end Merged

end Kaluta.Review
