import Kaluta.Review.System

-- One review at a time: the status that a stopped run keeps, and the cap of a day.
namespace Kaluta.Review

variable {s s' : State} {a : Action}

-- The status that a step writes, and the run that it writes it to.
def State.writes (s : State) : Action → Option (RunId × RunStatus)
  | .go i _   =>
    match s.calls[i]? with
    | some (.writing run status _ _) => some (run, status)
    | _                              => none
  | .advance  =>
    match s.job with
    | some (.ending run)    => some (run, .done)
    | some (.pausing run _) => some (run, .paused)
    | some (.failing run _) => some (run, .failed)
    | _                     => none
  | _         => none

-- What a status is written to is still in progress, or has that status.
def State.Current (s : State) (a : Action) : Prop :=
  ∀ w ∈ s.writes a, ∀ r ∈ s.db.runs.rows, r.id = w.1 → r.status.isActive ∨ r.status = w.2

instance : Decidable (s.Current a) :=
  inferInstanceAs (Decidable (∀ w ∈ s.writes a, _))

-- What a step does to the runs.
inductive RunsStep (s : State) (a : Action) (s' : State) : Prop
  | kept (runs : s'.db.runs = s.db.runs)
  | written (run : RunId) (status : RunStatus) (error : Option String) (hw : s.writes a = some (run, status))
      (runs : s'.db.runs = (s.db.setRunStatus run status error).runs)
  | created (day : Day) (daily : Bool) (none : s.db.activeRun = none)
      (runs : s'.db.runs = (s.db.insertRun day daily).1.runs)

theorem reinforceOne_runs (applied : CompositionId → List EntryId) (s : State) (id : CompositionId) :
    (s.reinforceOne applied id).db.runs = s.db.runs := by
  rw [State.reinforceOne]
  split
  case isTrue  => exact (Db.foldl_addHealth_frame _ _ _ _ _).left
  case isFalse => rfl

theorem create_runs (s : State) (daily : Bool) (day : Day) :
    (s.create daily day).db.runs = s.db.runs ∨
    s.db.activeRun = none ∧ (s.create daily day).db.runs = (s.db.insertRun day daily).1.runs := by
  rw [State.create]
  split
  case isTrue    => exact .inl rfl
  case isFalse h => exact .inr ⟨Option.not_isSome_iff_eq_none.mp h, rfl⟩

theorem go_runs (hs : s.go i b = some s') : RunsStep s (.go i b) s' := by
  rw [State.go, Option.bind_eq_bind, Option.bind_eq_some_iff] at hs
  obtain ⟨c, hc, hs⟩ := hs
  cases c
  case starting daily day =>
    dsimp only at hs
    split at hs
    · cases hs
    · cases hs; exact .kept rfl
  case resuming run retry =>
    dsimp only at hs
    split at hs
    · cases hs; exact .kept rfl
    · split at hs <;> (cases hs; exact .kept rfl)
  case writing run status error after =>
    have hw : s.writes (.go i b) = some (run, status) := by simp [State.writes, hc]
    cases after <;> (cases hs; exact .written run status error hw rfl)
  case releasing run => cases hs; exact .kept rfl
  case spawning run  => cases hs; exact .kept rfl

theorem look_db (s : State) (run : RunId) : (s.look run).db = s.db := by
  simp only [State.look]
  split
  · rfl
  · split
    · rfl
    · split <;> rfl

theorem check_db (s : State) : (s.check run batch pairs attempt answer).db = s.db := by
  simp only [State.check]
  split
  · rfl
  · split
    · rfl
    · split <;> rfl

theorem advance_runs (hj : s.job = some j) (hs : s.advance j = some s') : RunsStep s .advance s' := by
  cases j <;> simp only [State.advance, Option.some.injEq, reduceCtorEq] at hs <;> subst hs
  case looking run        => exact .kept (look_db s run ▸ rfl)
  case answered           => exact .kept (check_db s ▸ rfl)
  case merging            => exact .kept (Db.foldl_addHealth_frame _ _ _ _ _).left
  case finishing          => exact .kept rfl
  case ending run         => exact .written run _ _ (by simp [State.writes, hj]) rfl
  case noting             => exact .kept rfl
  case pausing run why    => exact .written run _ _ (by simp [State.writes, hj]) rfl
  case failing run why    => exact .written run _ _ (by simp [State.writes, hj]) rfl
  case leaving            => exact .kept rfl

theorem tick_db (s : State) : (s.tick today settled due).db = s.db := by
  rw [State.tick]
  split
  · rfl
  · split <;> rfl

theorem ready_db (hs : s.ready j b = some s') : s'.db = s.db := by
  simp only [State.ready] at hs
  split at hs
  · split at hs <;> (cases hs; rfl)
  · cases hs; rfl
  · cases hs

theorem jobFails_db (s : State) (why : String) (j : Job) : (s.jobFails why j).db = s.db := by
  cases j <;> rfl

theorem step_runs (hs : s.step a = some s') : RunsStep s a s' := by
  cases a <;> simp only [State.step, Option.some.injEq] at hs
  case go         => exact go_runs hs
  case advance    =>
    obtain ⟨j, hj, hs⟩ := Option.bind_eq_some_iff.mp hs
    exact advance_runs hj hs
  case ready      =>
    obtain ⟨j, _, hs⟩ := Option.bind_eq_some_iff.mp hs
    exact .kept (ready_db hs ▸ rfl)
  case jobFails why =>
    obtain ⟨j, _, rfl⟩ := Option.map_eq_some_iff.mp hs
    exact .kept (jobFails_db s why j ▸ rfl)
  case matched found =>
    split at hs <;> cases hs
    exact .kept (Db.matchAll_frame _ found).left
  case reinforce  =>
    split at hs <;> cases hs
    case h_1 ids applied _ =>
      refine .kept ?_
      exact List.foldl_preserves (P := fun t : State => t.db.runs = s.db.runs)
        (fun id _ h => (reinforceOne_runs applied _ id).trans h) rfl
  case create     =>
    split at hs <;> cases hs
    case h_1 daily day _ =>
      cases create_runs s daily day
      case inl h => exact .kept h
      case inr h => exact .created day daily h.left h.right
  case tick       => exact .kept (hs ▸ tick_db s ▸ rfl)
  case count      => split at hs <;> cases hs; exact .kept rfl
  case spawn      => split at hs <;> cases hs; exact .kept rfl
  case answer     => split at hs <;> cases hs; exact .kept rfl
  case agentStops => split at hs <;> cases hs <;> exact .kept rfl
  case gleaned    => split at hs <;> cases hs; exact .kept rfl
  all_goals exact .kept (hs ▸ rfl)

-- One run at a time is running or paused.
def Db.OneActive (db : Db) : Prop :=
  ∀ r ∈ db.runs, ∀ r' ∈ db.runs, r.status.isActive → r'.status.isActive → r = r'

theorem Db.activeRun_eq_none {db : Db} (h : db.activeRun = none) : ∀ r ∈ db.runs, r.status.isActive = false := by
  intro r hr
  by_contra ha
  have hm : r ∈ db.runs.rows.filter (·.status.isActive) := List.mem_filter.mpr ⟨hr, by simpa using ha⟩
  have hsome : db.activeRun.isSome := List.isSome_maxOn?_of_mem hm
  rw [h] at hsome
  cases hsome

theorem step_oneActive (h : s.db.OneActive) (hc : s.Current a) (hs : s.step a = some s') : s'.db.OneActive := by
  cases step_runs hs
  case kept runs => simpa only [Db.OneActive, runs] using h
  case written run status error hw runs =>
    have key : ∀ r' ∈ s'.db.runs, r'.status.isActive → ∃ r ∈ s.db.runs, r.id = r'.id ∧ r.status.isActive := by
      intro r' hr' ha
      rw [runs, Db.setRunStatus, Table.mem_update] at hr'
      rcases hr' with ⟨hr', _⟩ | ⟨r, hr, hid, rfl⟩
      · exact ⟨r', hr', rfl, ha⟩
      · refine ⟨r, hr, rfl, ?_⟩
        cases hc _ hw r hr (of_decide_eq_true hid)
        case inl active => exact active
        case inr same   => exact same ▸ ha
    intro r hr r' hr' ha ha'
    obtain ⟨q, hq, hid, qa⟩ := key r hr ha
    obtain ⟨q', hq', hid', qa'⟩ := key r' hr' ha'
    have : q = q' := h q hq q' hq' qa qa'
    exact Table.eq_of_key_eq hr hr' (hid.symm.trans (this ▸ hid'))
  case created day daily none runs =>
    have old := Db.activeRun_eq_none none
    intro r hr r' hr' ha ha'
    rw [runs, Db.insertRun, Table.mem_insertRow] at hr hr'
    rcases hr with hr | rfl
    · exact absurd ha (by simp [old r hr])
    · rcases hr' with hr' | rfl
      · exact absurd ha' (by simp [old r' hr'])
      · rfl

-- A run that is over keeps its status.
theorem step_over (hc : s.Current a) (hs : s.step a = some s') (hr : r ∈ s.db.runs) (ho : r.status.isActive = false) :
    ∃ r' ∈ s'.db.runs, r'.id = r.id ∧ r'.status = r.status := by
  cases step_runs hs
  case kept runs => exact ⟨r, runs ▸ hr, rfl, rfl⟩
  case written run status error hw runs =>
    rw [runs]
    refine Table.exists_mem_update (p := (·.id = run)) (f := ({ · with status, error })) (fun _ => rfl) hr
      (P := fun r' => r'.id = r.id ∧ r'.status = r.status) ?_
    split
    case isTrue hid =>
      refine ⟨rfl, ?_⟩
      cases hc _ hw r hr (of_decide_eq_true hid)
      case inl active => exact absurd active (by simp [ho])
      case inr same   => exact same.symm
    case isFalse    => exact ⟨rfl, rfl⟩
  case created day daily _ runs => exact ⟨r, by simp [runs, Db.insertRun, hr], rfl, rfl⟩

-- What a step does to the pairs that runs took.
inductive PairsStep (s : State) (s' : State) : Prop
  | kept (pairs : s'.db.runPairs = s.db.runPairs) (caps : s'.caps = s.caps)
  | released (run : RunId) (pairs : s'.db.runPairs = (s.db.releasePairs run).runPairs) (caps : s'.caps = s.caps)
  | finished (run : RunId) (batch : Nat) (pairs : s'.db.runPairs = (s.db.finishBatch run batch).runPairs)
      (caps : s'.caps = s.caps)
  | created (daily : Bool) (day : Day) (eq : s' = s.create daily day)

theorem reinforceOne_pairs (applied : CompositionId → List EntryId) (s : State) (id : CompositionId) :
    (s.reinforceOne applied id).db.runPairs = s.db.runPairs ∧ (s.reinforceOne applied id).caps = s.caps := by
  rw [State.reinforceOne]
  split
  case isTrue  => exact ⟨(Db.foldl_addHealth_frame _ _ _ _ _).right.left, rfl⟩
  case isFalse => exact ⟨rfl, rfl⟩

theorem go_pairs (hs : s.go i b = some s') : PairsStep s s' := by
  rw [State.go, Option.bind_eq_bind, Option.bind_eq_some_iff] at hs
  obtain ⟨c, hc, hs⟩ := hs
  cases c
  case starting daily day =>
    dsimp only at hs
    split at hs
    · cases hs
    · cases hs; exact .kept rfl rfl
  case resuming run retry =>
    dsimp only at hs
    split at hs
    · cases hs; exact .kept rfl rfl
    · split at hs <;> (cases hs; exact .kept rfl rfl)
  case writing run status error after => cases after <;> (cases hs; exact .kept rfl rfl)
  case releasing run => cases hs; exact .released run rfl rfl
  case spawning run  => cases hs; exact .kept rfl rfl

theorem look_caps (s : State) (run : RunId) : (s.look run).caps = s.caps := by
  simp only [State.look]
  split
  · rfl
  · split
    · rfl
    · split <;> rfl

theorem check_caps (s : State) : (s.check run batch pairs attempt answer).caps = s.caps := by
  simp only [State.check]
  split
  · rfl
  · split
    · rfl
    · split <;> rfl

theorem advance_pairs (hs : s.advance j = some s') : PairsStep s s' := by
  cases j <;> simp only [State.advance, Option.some.injEq, reduceCtorEq] at hs <;> subst hs
  case looking run          => exact .kept (look_db s run ▸ rfl) (look_caps s run)
  case answered             => exact .kept (check_db s ▸ rfl) (check_caps s)
  case merging              => exact .kept (Db.foldl_addHealth_frame _ _ _ _ _).right.left rfl
  case finishing run batch _ => exact .finished run batch rfl rfl
  case leaving run          => exact .released run rfl rfl
  all_goals exact .kept rfl rfl

theorem step_pairs (hs : s.step a = some s') : PairsStep s s' := by
  cases a <;> simp only [State.step, Option.some.injEq] at hs
  case go         => exact go_pairs hs
  case advance    =>
    obtain ⟨j, hj, hs⟩ := Option.bind_eq_some_iff.mp hs
    exact advance_pairs hs
  case ready      =>
    obtain ⟨j, _, hs⟩ := Option.bind_eq_some_iff.mp hs
    refine .kept (ready_db hs ▸ rfl) ?_
    simp only [State.ready] at hs
    split at hs
    · split at hs <;> (cases hs; rfl)
    · cases hs; rfl
    · cases hs
  case jobFails why =>
    obtain ⟨j, _, rfl⟩ := Option.map_eq_some_iff.mp hs
    exact .kept (jobFails_db s why j ▸ rfl) (by cases j <;> rfl)
  case matched found =>
    split at hs <;> cases hs
    exact .kept (Db.matchAll_frame _ found).right rfl
  case reinforce  =>
    split at hs <;> cases hs
    case h_1 ids applied _ =>
      have : (ids.foldl (State.reinforceOne applied) s).db.runPairs = s.db.runPairs ∧
          (ids.foldl (State.reinforceOne applied) s).caps = s.caps := List.foldl_preserves
        (P := fun t : State => t.db.runPairs = s.db.runPairs ∧ t.caps = s.caps)
        (fun id _ h => ⟨(reinforceOne_pairs applied _ id).left.trans h.left,
          (reinforceOne_pairs applied _ id).right.trans h.right⟩) ⟨rfl, rfl⟩
      exact .kept this.left this.right
  case create     => split at hs <;> cases hs; exact .created _ _ rfl
  case tick       =>
    refine .kept (hs ▸ tick_db s ▸ rfl) (hs ▸ ?_)
    rw [State.tick]
    split
    · rfl
    · split <;> rfl
  case count      => split at hs <;> cases hs; exact .kept rfl rfl
  case spawn      => split at hs <;> cases hs; exact .kept rfl rfl
  case answer     => split at hs <;> cases hs; exact .kept rfl rfl
  case agentStops => split at hs <;> cases hs <;> exact .kept rfl rfl
  case gleaned    => split at hs <;> cases hs; exact .kept rfl rfl
  all_goals exact .kept (hs ▸ rfl) (hs ▸ rfl)

section Cap

variable {db : Db}

-- At most one more row is counted for each pair that a run takes.
theorem insertPairs_count (db : Db) (run : RunId) (pairs : List CompositionId) (q : RunPair → Bool) :
    (db.insertPairs run pairs).runPairs.count q ≤ db.runPairs.count q + pairs.length := by
  rw [Db.insertPairs, ← List.length_zipIdx (l := pairs) (i := 0)]
  generalize pairs.zipIdx = ps
  dsimp only
  generalize db.runPairs = t
  induction ps generalizing t
  case nil => simp
  case cons p ps ih =>
    rw [List.foldl_cons, List.length_cons]
    refine (ih _).trans ?_
    have : (t.insertOrIgnore { runId := run, compositionId := p.1, batch := p.2 / COMPARE_BATCH }).count q ≤
        t.count q + 1 := by
      rw [Table.insertOrIgnore]
      split
      · rw [Table.count_insert]; split <;> omega
      · omega
    omega

theorem mem_insertPairs (h : p ∈ (db.insertPairs run pairs).runPairs) :
    p ∈ db.runPairs ∨ p.runId = run ∧ p.compositionId ∈ pairs ∧ p.done = false := by
  rw [Db.insertPairs] at h
  have hm : ∀ q ∈ pairs.zipIdx, q.1 ∈ pairs := fun q hq => (List.mem_zipIdx' hq).right ▸ List.getElem_mem _
  revert h
  generalize pairs.zipIdx = ps at hm
  dsimp only
  refine List.foldl_preserves (P := fun t => p ∈ t → p ∈ db.runPairs ∨ _) ?_ .inl
  intro t q hq ih h
  rcases Table.mem_of_mem_insertOrIgnore h with h | rfl
  · exact ih h
  · exact .inr ⟨rfl, hm q hq, rfl⟩

-- Rows of other runs are counted as before.
theorem insertPairs_count_other (db : Db) (run : RunId) (hq : ∀ p : RunPair, p.runId = run → q p = false)
    (pairs : List CompositionId) :
    (db.insertPairs run pairs).runPairs.count q = db.runPairs.count q := by
  rw [Db.insertPairs]
  generalize pairs.zipIdx = ps
  dsimp only
  refine List.foldl_preserves (P := fun t => Table.count t q = db.runPairs.count q) ?_ rfl
  intro t p _ ih
  rw [Table.insertOrIgnore]
  split
  · rw [Table.count_insert, hq _ rfl]; simpa using ih
  · exact ih

theorem getRun_insertRun (day : Day) (daily : Bool) :
    (db.insertRun day daily).1.getRun db.runs.nextRowid = some { id := db.runs.nextRowid, day, daily } :=
  Table.find?_insertRow_self

-- A run keeps its day.
theorem day_kept (hs : s.step a = some s') (hr : ∃ r ∈ s.db.runs, r.id = run) (day : Day) :
    ((s'.db.getRun run).any (·.day = day)) = (s.db.getRun run).any (·.day = day) := by
  simp only [Db.getRun]
  cases step_runs hs
  case kept runs => rw [runs]
  case written run' status error _ runs =>
    rw [runs, Db.setRunStatus, Table.find?_update]
    cases s.db.runs.find? run
    case none   => rfl
    case some r => simp only [Option.map_some, Option.any_some]; split <;> rfl
  case created day' daily _ runs =>
    obtain ⟨r, hr, rfl⟩ := hr
    rw [runs, Db.insertRun, Table.find?_insertRow_ne (Table.lt_nextRowid hr).ne]

-- Every pair belongs to a run, and no more pairs are taken for a day than its cap was when the last of them was.
structure State.Capped (s : State) : Prop where
  owned : ∀ p ∈ s.db.runPairs, ∃ r ∈ s.db.runs, r.id = p.runId
  cap   : ∀ day, s.db.pairsTakenOn day ≤ s.caps day

theorem runs_kept (hs : s.step a = some s') (hr : ∃ r ∈ s.db.runs, r.id = run) : ∃ r ∈ s'.db.runs, r.id = run := by
  obtain ⟨r, hr, rfl⟩ := hr
  cases step_runs hs
  case kept runs => exact ⟨r, runs ▸ hr, rfl⟩
  case written run status error _ runs =>
    rw [runs]
    exact Table.exists_mem_update (p := (·.id = run)) (f := ({ · with status, error })) (fun _ => rfl) hr
      (P := fun r' => r'.id = r.id) (by split <;> rfl)
  case created runs => exact ⟨r, by simp [runs, Db.insertRun, hr], rfl⟩

theorem create_capped (h : s.Capped) (day : Day) (daily : Bool) : (s.create daily day).Capped := by
  rw [State.create]
  split
  case isTrue => exact ⟨h.owned, h.cap⟩
  case isFalse =>
    set cap := s.db.pairsPerDay.getD DEFAULT_PAIRS_PER_DAY with hcap
    set pairs := s.db.pairsToCompare (cap - s.db.pairsTakenOn day) with hpairs
    have hlen : pairs.length ≤ cap - s.db.pairsTakenOn day := List.length_take_le _ _
    have fresh : ∀ p ∈ s.db.runPairs, p.runId ≠ s.db.runs.nextRowid := fun p hp => by
      obtain ⟨r, hr, hid⟩ := h.owned p hp
      exact hid ▸ (Table.lt_nextRowid hr).ne
    have old (d : Day) : s.db.runPairs.count (fun p => ((s.db.insertRun day daily).1.getRun p.runId).any (·.day = d)) =
        s.db.pairsTakenOn d := by
      refine Table.count_congr fun p hp => ?_
      simp only [Db.getRun, Db.insertRun, Table.find?_insertRow_ne (fresh p hp)]
    refine ⟨fun p hp => ?_, fun d => ?_⟩
    · simp only [Db.createRun, Db.insertPairs_runs] at hp ⊢
      rcases mem_insertPairs hp with hp | ⟨hp, _⟩
      · obtain ⟨r, hr, hid⟩ := h.owned p hp
        exact ⟨r, by simp [Db.insertRun, hr], hid⟩
      · exact ⟨{ id := s.db.runs.nextRowid, day, daily }, by simp [Db.insertRun], hp.symm⟩
    · have bound := insertPairs_count (s.db.insertRun day daily).1 s.db.runs.nextRowid pairs
        fun p => ((s.db.insertRun day daily).1.getRun p.runId).any (·.day = d)
      have same := old d
      have := h.cap d
      change Table.count ((s.db.insertRun day daily).1.insertPairs s.db.runs.nextRowid pairs).runPairs
        (fun p => ((s.db.insertRun day daily).1.getRun p.runId).any (·.day = d)) ≤
        (if pairs = [] then s.caps else fun d => if d = day then cap else s.caps d) d
      by_cases hd : d = day
      case pos =>
        by_cases hnil : pairs = []
        · simp only [hnil, if_true, List.length_nil] at bound ⊢
          exact bound.trans (same.le.trans this)
        · have : 0 < pairs.length := List.length_pos_iff.mpr hnil
          simp only [hnil, if_false, hd, if_true]
          subst hd
          refine bound.trans ?_
          change s.db.runPairs.count _ + _ ≤ _
          omega
      case neg =>
        have other := insertPairs_count_other (s.db.insertRun day daily).1 s.db.runs.nextRowid
          (q := fun p => ((s.db.insertRun day daily).1.getRun p.runId).any (·.day = d))
          (fun p hp => by simp [hp, getRun_insertRun, Ne.symm hd]) pairs
        refine (other.trans same).le.trans ?_
        split
        · exact this
        · simpa only [hd, if_false] using this

theorem step_capped (h : s.Capped) (hs : s.step a = some s') : s'.Capped := by
  have days (d : Day) : ∀ p ∈ s.db.runPairs,
      ((s'.db.getRun p.runId).any (·.day = d)) = (s.db.getRun p.runId).any (·.day = d) :=
    fun p hp => day_kept hs (h.owned p hp) d
  cases step_pairs hs
  case kept pairs caps =>
    refine ⟨fun p hp => runs_kept hs (h.owned p (pairs ▸ hp)), fun d => ?_⟩
    rw [Db.pairsTakenOn, pairs, caps, Table.count_congr (days d)]
    exact h.cap d
  case released run pairs caps =>
    refine ⟨fun p hp => ?_, fun d => ?_⟩
    · rw [pairs, Db.releasePairs, Table.mem_delete] at hp
      exact runs_kept hs (h.owned p hp.left)
    · rw [Db.pairsTakenOn, pairs, caps, Db.releasePairs, Table.count_delete]
      refine le_trans (List.countP_mono_left fun p hp hq => ?_) (h.cap d)
      exact days d p hp ▸ (Bool.and_eq_true_iff.mp hq).left
  case finished run batch pairs caps =>
    refine ⟨fun p hp => ?_, fun d => ?_⟩
    · rw [pairs, Db.finishBatch, Table.mem_update] at hp
      rcases hp with ⟨hp, _⟩ | ⟨p, hp, _, rfl⟩
      · exact runs_kept hs (h.owned p hp)
      · exact runs_kept hs (h.owned p hp)
    · rw [Db.pairsTakenOn, pairs, caps, Db.finishBatch, Table.count_update]
      refine le_of_eq_of_le (Table.count_congr fun p hp => ?_) (h.cap d)
      rw [← days d p hp]
      split <;> rfl
  case created daily day eq => exact eq ▸ create_capped h day daily

end Cap

-- A status is written to a run without another look at it. As long as it finds the run in progress, one review at a
-- time is running or paused, and one that is over keeps its status. The cap of a day holds in any case.
theorem reachable_one_run {ok : State → Action → Prop} (h : reviews.Reachable ok s) :
    ((∀ s a, ok s a → s.Current a) →
      s.db.OneActive ∧
      ∀ s', reviews.Leads ok s s' → ∀ r ∈ s.db.runs, r.status.isActive = false →
        ∃ r' ∈ s'.db.runs, r'.id = r.id ∧ r'.status = r.status) ∧
    ∀ day, s.db.pairsTakenOn day ≤ s.caps day := by
  refine ⟨fun hok => ⟨?_, fun s' hl r hr ho => ?_⟩, ?_⟩
  · refine h.invariant (P := fun s => s.db.OneActive) ?_ fun _ _ _ ih ha hs => step_oneActive ih (hok _ _ ha) hs
    rintro _ rfl r hr
    exact absurd hr (Table.not_mem_empty (a := r))
  · refine hl.invariant (P := fun t => ∃ r' ∈ t.db.runs, r'.id = r.id ∧ r'.status = r.status) ⟨r, hr, rfl, rfl⟩ ?_
    rintro t a t' ⟨q, hq, hid, hst⟩ ha hs
    obtain ⟨q', hq', hid', hst'⟩ := step_over (hok _ _ ha) hs hq (hst ▸ ho)
    exact ⟨q', hq', hid'.trans hid, hst'.trans hst⟩
  · refine (h.invariant (P := State.Capped) ?_ fun _ _ _ ih _ hs => step_capped ih hs).cap
    rintro _ rfl
    exact ⟨fun p hp => absurd hp (Table.not_mem_empty (a := p)), fun _ => le_refl 0⟩

section Overtaken

-- A pair that the user changed waits for review.
def onePair : List Action :=
  [.compose 1, .runNow "2025-03-01", .go 0 true, .matched [(1, some 400)], .count fun _ => []]

def started : List Action :=
  onePair ++ [.reinforce, .create, .spawn]

def batchDone : List Action :=
  [.advance, .ready true, .answer (some []), .advance, .advance, .advance]

-- A review that was paused and resumed comes to its end, and the next day's pairs fit in the cap.
theorem reachable_one_run_resumed : ∃ s, reviews.Reachable State.Current s ∧ s.db.runs.rows.length = 2 ∧
    s.db.OneActive ∧ s.db.pairsTakenOn "2025-03-01" ≤ s.caps "2025-03-01" := by
  have run : (reviews.run State.Current {} (started ++ [.pause, .go 0 true, .resume, .go 0 true, .go 0 true, .go 0 true] ++
      batchDone ++ [.advance, .gleaned, .advance, .advance, .runNow "2025-03-02", .go 0 true, .matched [],
        .count fun _ => [], .reinforce, .create])).any fun s => s.db.runs.rows.length = 2 := by decide
  obtain ⟨s, hs, h⟩ := (Option.any_eq_true _ _).mp run
  have hr := System.Reachable.run (.start rfl) hs
  have main := reachable_one_run hr
  exact ⟨s, hr, of_decide_eq_true h, (main.left fun _ _ ha => ha).left, main.right _⟩

-- The user pauses a review as it comes to its end, and starts the next one: both are in progress then.
theorem paused_after_done : ¬∀ s, reviews.Reachable (fun _ _ => True) s →
    s.db.OneActive ∧
    (∀ s', reviews.Leads (fun _ _ => True) s s' → ∀ r ∈ s.db.runs, r.status.isActive = false →
      ∃ r' ∈ s'.db.runs, r'.id = r.id ∧ r'.status = r.status) ∧
    ∀ day, s.db.pairsTakenOn day ≤ s.caps day := by
  intro claim
  have run : (reviews.run (fun _ _ => True) {} (started ++ batchDone ++ [.advance, .pause, .gleaned, .advance,
      .runNow "2025-03-01", .go 1 true, .matched [], .count fun _ => [], .reinforce, .create, .go 0 true])).any
        fun s => (s.db.runs.rows.filter (·.status.isActive)).map (·.id) = [1, 2] := by decide
  obtain ⟨s, hs, h⟩ := (Option.any_eq_true _ _).mp run
  have one := (claim s (.run (.start rfl) hs)).left
  have mem (id : RunId) (hid : id ∈ [1, 2]) : ∃ r ∈ s.db.runs, r.status.isActive ∧ r.id = id := by
    rw [← of_decide_eq_true h] at hid
    obtain ⟨r, hr, hid⟩ := List.mem_map.mp hid
    exact ⟨r, (List.mem_filter.mp hr).left, (List.mem_filter.mp hr).right, hid⟩
  obtain ⟨r, hr, ha, hid⟩ := mem 1 (by simp)
  obtain ⟨r', hr', ha', hid'⟩ := mem 2 (by simp)
  rw [one r hr r' hr' ha ha', hid'] at hid
  cases hid

end Overtaken

end Kaluta.Review
