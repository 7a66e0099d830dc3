import Mathlib.Data.List.Sort
import Mathlib.Data.Int.LeastGreatest
import Mathlib.Order.Bounds.Basic

-- Routine schedules, and what the scheduler does at each look at the clock.
namespace Kaluta.Routines

-- A rule as the rrule library reads it: `dates` are the occurrences from one time to another, both included, in order.
-- Times are in milliseconds.
structure RRuleSet where
  occurs  : Int → Prop
  dates   : Int → Int → List Int
  mem     : ∀ {a b t}, t ∈ dates a b ↔ occurs t ∧ a ≤ t ∧ t ≤ b
  ordered : ∀ {a b}, (dates a b).Pairwise (· < ·)
  seconds : ∀ {t}, occurs t → 1000 ∣ t

-- The library stops after `max` dates; `none` is no limit.
def RRuleSet.all (set : RRuleSet) (after before : Int) : Option Nat → List Int
  | none     => set.dates after before
  | some max => (set.dates after before).take max

def occurrences (set : RRuleSet) (afterMs untilMs : Int) (max : Option Nat) : List Int :=
  (set.all (afterMs + 1000) untilMs max).filter fun t => afterMs < t ∧ t ≤ untilMs

structure Run where
  startedAt : Int
  status    : String

-- A routine that is on and runs on this Mac.
structure Routine where
  rrule     : RRuleSet
  updatedAt : Int

structure State where
  -- The last look at the clock in this launch.
  lastChecked : Option Int := none
  runs        : List Run := []
  -- The looks that started a session of the routine.
  started     : List Int := []

-- The start of the latest run, or when the routine was last edited.
def lastRun (routine : Routine) (runs : List Run) : Int :=
  (runs.map Run.startedAt).max?.getD routine.updatedAt

-- One look at the clock: what is left of it, and whether it found the routine due.
def schedulerTick (routine : Routine) (s : State) (now : Int) (running : Bool) : State × Bool :=
  match s.lastChecked with
  | none =>
    -- Anything due since the last run happened while the app was not running.
    let missed := occurrences routine.rrule (lastRun routine s.runs) now (some 1000)
    match missed.getLast? with
    | some latest => ({ s with lastChecked := some now, runs := s.runs ++ [⟨latest, "missed"⟩] }, false)
    | none        => ({ s with lastChecked := some now }, false)
  | some since =>
    let due := ¬(occurrences routine.rrule since now (some 1)).isEmpty
    ({ s with lastChecked := some now, started := if due ∧ ¬running then s.started ++ [now] else s.started }, due)

-- Looks at given times, each with whether a session of the routine is running then, and the ones that found it due.
def looks (routine : Routine) (s : State) : List (Int × Bool) → State × List Int
  | []                      => (s, [])
  | (now, running) :: later =>
    let (s', due) := schedulerTick routine s now running
    let (s'', dues) := looks routine s' later
    (s'', if due then now :: dues else dues)

end Kaluta.Routines

-- Which rules and times of looking neither skip nor repeat a due time.
namespace Kaluta.Routines

variable {set : RRuleSet} {routine : Routine} {s : State} {a b o now : Int} {ticks : List Int}

section Window

theorem mem_occurrences : o ∈ occurrences set a b none ↔ set.occurs o ∧ a + 1000 ≤ o ∧ o ≤ b := by
  simp only [occurrences, RRuleSet.all, List.mem_filter, set.mem, decide_eq_true_eq]
  constructor
  · exact And.left
  · rintro ⟨occurs, late, upTo⟩
    exact ⟨⟨occurs, late, upTo⟩, by omega, upTo⟩

theorem occurrences_ordered : (occurrences set a b none).Pairwise (· < ·) :=
  set.ordered.filter _

-- The library's window is inside the one asked for.
theorem occurrences_limited (max : Nat) :
    occurrences set a b (some max) = (set.dates (a + 1000) b).take max := by
  refine List.filter_eq_self.mpr fun o mem => ?_
  obtain ⟨-, late, upTo⟩ := set.mem.mp (List.mem_of_mem_take mem)
  exact decide_eq_true ⟨by omega, upTo⟩

theorem due_iff : ¬(occurrences set a b (some 1)).isEmpty = true ↔ ∃ o, set.occurs o ∧ a + 1000 ≤ o ∧ o ≤ b := by
  rw [occurrences_limited, List.isEmpty_iff, List.take_eq_nil_iff]
  simp only [Nat.one_ne_zero, false_or]
  constructor
  · intro nonempty
    obtain ⟨o, mem⟩ := List.exists_mem_of_ne_nil _ nonempty
    exact ⟨o, set.mem.mp mem⟩
  · rintro ⟨o, h⟩ empty
    exact absurd (set.mem.mpr h) (empty ▸ List.not_mem_nil)

end Window

section Windows

-- The windows that consecutive looks ask for.
def windows (ticks : List Int) : List (Int × Int) :=
  ticks.zip ticks.tail

theorem windows_cons : windows (a :: b :: ticks) = (a, b) :: windows (b :: ticks) := rfl

theorem window_bounds {w : Int × Int} (ordered : (a :: ticks).Pairwise (· < ·)) (mem : w ∈ windows (a :: ticks)) :
    a ≤ w.1 ∧ w.1 < w.2 ∧ w.2 ≤ (a :: ticks).getLast (List.cons_ne_nil _ _) := by
  induction ticks generalizing a with
  | nil => exact absurd mem List.not_mem_nil
  | cons b rest ih =>
    obtain ⟨above, ordered'⟩ := List.pairwise_cons.mp ordered
    have step : a < b := above b List.mem_cons_self
    rw [List.getLast_cons (List.cons_ne_nil _ _)]
    rcases List.mem_cons.mp (windows_cons ▸ mem) with rfl | mem
    · refine ⟨Int.le_refl _, step, ?_⟩
      rcases List.mem_cons.mp (List.getLast_mem (List.cons_ne_nil b rest)) with eq | mem
      · exact Int.le_of_eq eq.symm
      · exact Int.le_of_lt ((List.pairwise_cons.mp ordered').1 _ mem)
    · have bounds := ih ordered' mem
      exact ⟨by omega, bounds.2⟩

theorem exists_window (later : a < o) (upTo : o ≤ (a :: ticks).getLast (List.cons_ne_nil _ _)) :
    ∃ w ∈ windows (a :: ticks), w.1 < o ∧ o ≤ w.2 := by
  induction ticks generalizing a with
  | nil => exact absurd upTo (Int.not_le.mpr later)
  | cons b rest ih =>
    rw [windows_cons]
    by_cases here : o ≤ b
    · exact ⟨(a, b), List.mem_cons_self, later, here⟩
    · rw [List.getLast_cons (List.cons_ne_nil _ _)] at upTo
      obtain ⟨w, mem, inside⟩ := ih (Int.not_le.mp here) upTo
      exact ⟨w, List.mem_cons_of_mem _ mem, inside⟩

theorem exists_window_of_look (mem : b ∈ ticks) : ∃ w ∈ windows (a :: ticks), w.2 = b := by
  induction ticks generalizing a with
  | nil => exact absurd mem List.not_mem_nil
  | cons c rest ih =>
    rw [windows_cons]
    rcases List.mem_cons.mp mem with rfl | mem
    · exact ⟨(a, b), List.mem_cons_self, rfl⟩
    · obtain ⟨w, mem, eq⟩ := ih mem
      exact ⟨w, List.mem_cons_of_mem _ mem, eq⟩

theorem window_unique {w w' : Int × Int} (ordered : (a :: ticks).Pairwise (· < ·))
    (mem : w ∈ windows (a :: ticks)) (mem' : w' ∈ windows (a :: ticks)) (inside : w.1 < o ∧ o ≤ w.2)
    (inside' : w'.1 < o ∧ o ≤ w'.2) : w = w' := by
  induction ticks generalizing a with
  | nil => exact absurd mem List.not_mem_nil
  | cons b rest ih =>
    obtain ⟨-, ordered'⟩ := List.pairwise_cons.mp ordered
    rw [windows_cons, List.mem_cons] at mem mem'
    rcases mem with rfl | mem <;> rcases mem' with rfl | mem'
    · rfl
    · have := (window_bounds ordered' mem').1
      omega
    · have := (window_bounds ordered' mem).1
      omega
    · exact ih ordered' mem mem'

theorem windows_ordered (ordered : (a :: ticks).Pairwise (· < ·)) :
    ((windows (a :: ticks)).flatMap fun w => occurrences set w.1 w.2 none).Pairwise (· < ·) := by
  induction ticks generalizing a with
  | nil => exact List.Pairwise.nil
  | cons b rest ih =>
    obtain ⟨-, ordered'⟩ := List.pairwise_cons.mp ordered
    rw [windows_cons, List.flatMap_cons, List.pairwise_append]
    refine ⟨occurrences_ordered, ih ordered', fun o mem o' mem' => ?_⟩
    obtain ⟨w, inside, mem'⟩ := List.mem_flatMap.mp mem'
    have upTo := (mem_occurrences.mp mem).2.2
    have late := (mem_occurrences.mp mem').2.1
    have bound := (window_bounds ordered' inside).1
    dsimp only at upTo
    omega

end Windows

-- The windows of consecutive looks are a partition of the whole.
def Partition (set : RRuleSet) (first : Int) (later : List Int) : Prop :=
  occurrences set first ((first :: later).getLast (List.cons_ne_nil _ _)) none =
    (windows (first :: later)).flatMap fun w => occurrences set w.1 w.2 none

-- An occurrence within a second of the look before it is not in that look's window.
def NoneWithinASecond (set : RRuleSet) (first : Int) (later : List Int) : Prop :=
  ∀ o, set.occurs o → first + 1000 ≤ o → o ≤ (first :: later).getLast (List.cons_ne_nil _ _) →
    ∀ w ∈ windows (first :: later), w.1 < o → o ≤ w.2 → w.1 + 1000 ≤ o

theorem partition_iff (ordered : (a :: ticks).Pairwise (· < ·)) :
    Partition set a ticks ↔ NoneWithinASecond set a ticks := by
  constructor
  · intro same o occurs late upTo w mem later before
    have whole : o ∈ occurrences set a ((a :: ticks).getLast (List.cons_ne_nil _ _)) none :=
      mem_occurrences.mpr ⟨occurs, late, upTo⟩
    rw [same] at whole
    obtain ⟨w', mem', part⟩ := List.mem_flatMap.mp whole
    have part' := (mem_occurrences.mp part).2
    have eq := window_unique ordered mem mem' ⟨later, before⟩ ⟨by omega, part'.2⟩
    exact eq ▸ part'.1
  · intro apart
    refine List.Pairwise.eq_of_mem_iff occurrences_ordered (windows_ordered ordered) fun o => ?_
    rw [mem_occurrences, List.mem_flatMap]
    constructor
    · rintro ⟨occurs, late, upTo⟩
      obtain ⟨w, mem, later, before⟩ := exists_window (by omega) upTo
      exact ⟨w, mem, mem_occurrences.mpr ⟨occurs, apart o occurs late upTo w mem later before, before⟩⟩
    · rintro ⟨w, mem, part⟩
      obtain ⟨occurs, late, upTo⟩ := mem_occurrences.mp part
      have bounds := window_bounds ordered mem
      exact ⟨occurs, by omega, by omega⟩

section Looks

-- The windows in which a look finds the routine due.
def Due (set : RRuleSet) (w : Int × Int) : Prop :=
  ∃ o, set.occurs o ∧ w.1 + 1000 ≤ o ∧ o ≤ w.2

theorem tick_first (routine : Routine) (now : Int) (fresh : s.lastChecked = none) (running : Bool) :
    (schedulerTick routine s now running).1.lastChecked = some now ∧ (schedulerTick routine s now running).2 = false := by
  unfold schedulerTick
  rw [fresh]
  dsimp only
  split <;> exact ⟨rfl, rfl⟩

theorem tick_later (routine : Routine) (now : Int) (checked : s.lastChecked = some a) (running : Bool) :
    (schedulerTick routine s now running).1.lastChecked = some now ∧
      ((schedulerTick routine s now running).2 = true ↔ Due routine.rrule (a, now)) := by
  unfold schedulerTick
  rw [checked]
  exact ⟨rfl, by rw [decide_eq_true_eq]; exact due_iff⟩

variable {later : List (Int × Bool)}

theorem looks_mem {now : Int} (mem : now ∈ (looks routine s later).2) : now ∈ later.map Prod.fst := by
  induction later generalizing s with
  | nil => exact absurd mem List.not_mem_nil
  | cons look rest ih =>
    simp only [looks] at mem
    split at mem
    case isTrue =>
      rcases List.mem_cons.mp mem with rfl | mem
      · exact List.mem_cons_self
      · exact List.mem_cons_of_mem _ (ih mem)
    case isFalse => exact List.mem_cons_of_mem _ (ih mem)

-- A look finds the routine due exactly when its window holds an occurrence that the library is asked for.
theorem looks_due (routine : Routine) (checked : s.lastChecked = some a)
    (ordered : (a :: later.map Prod.fst).Pairwise (· < ·))
    {w : Int × Int} (mem : w ∈ windows (a :: later.map Prod.fst)) :
    w.2 ∈ (looks routine s later).2 ↔ Due routine.rrule w := by
  induction later generalizing a s with
  | nil => exact absurd mem List.not_mem_nil
  | cons look rest ih =>
    obtain ⟨now, running⟩ := look
    obtain ⟨checked', due⟩ := tick_later routine now checked running
    obtain ⟨-, ordered'⟩ := List.pairwise_cons.mp ordered
    rw [List.map_cons, windows_cons, List.mem_cons] at mem
    have after := (List.pairwise_cons.mp ordered').1
    simp only [looks]
    rcases mem with rfl | mem
    case inl =>
      rw [← due]
      split
      case isTrue found => exact iff_of_true List.mem_cons_self found
      case isFalse found =>
        refine iff_of_false (fun mem => ?_) found
        exact Int.lt_irrefl _ (after _ (looks_mem mem))
    case inr =>
      have bounds := window_bounds ordered' mem
      rw [← ih checked' ordered' mem]
      split
      case isTrue =>
        rw [List.mem_cons, or_iff_right]
        intro eq
        dsimp only at eq bounds
        omega
      case isFalse => rfl

end Looks

-- Each occurrence after the first look of a launch makes exactly one later look due, and no look is due without one.
def DueOnce (routine : Routine) (runs : List Run) (first : Int) (running : Bool) (later : List (Int × Bool)) : Prop :=
  let dues := (looks routine { runs } ((first, running) :: later)).2
  let ws := windows (first :: later.map Prod.fst)
  (∀ o, routine.rrule.occurs o → first < o →
    o ≤ (first :: later.map Prod.fst).getLast (List.cons_ne_nil _ _) → ∃! w, w ∈ ws ∧ w.2 ∈ dues ∧ w.1 < o ∧ o ≤ w.2) ∧
  ∀ now ∈ dues, ∃ w ∈ ws, w.2 = now ∧ ∃ o, routine.rrule.occurs o ∧ w.1 < o ∧ o ≤ w.2

-- No window's occurrences are all within a second of the look before.
def SomeAfterASecond (set : RRuleSet) (first : Int) (later : List Int) : Prop :=
  ∀ w ∈ windows (first :: later), (∃ o, set.occurs o ∧ w.1 < o ∧ o ≤ w.2) → Due set w

theorem dueOnce_iff {runs : List Run} {later : List (Int × Bool)} {running : Bool}
    (ordered : (a :: later.map Prod.fst).Pairwise (· < ·)) :
    DueOnce routine runs a running later ↔ SomeAfterASecond routine.rrule a (later.map Prod.fst) := by
  obtain ⟨checked, quiet⟩ := tick_first routine a (s := { runs }) rfl running
  have dues : (looks routine { runs } ((a, running) :: later)).2 =
      (looks routine (schedulerTick routine { runs } a running).1 later).2 := by
    simp only [looks, quiet, Bool.false_eq_true, ↓reduceIte]
  have due {w : Int × Int} (mem : w ∈ windows (a :: later.map Prod.fst)) :=
    looks_due routine checked ordered mem
  unfold DueOnce
  dsimp only
  rw [dues]
  constructor
  · rintro ⟨once, -⟩ w mem ⟨o, occurs, inside⟩
    have bounds := window_bounds ordered mem
    obtain ⟨w', ⟨mem', found, inside'⟩, -⟩ := once o occurs (by omega) (by omega)
    rw [window_unique ordered mem mem' inside inside']
    exact (due mem').mp found
  · intro some
    refine ⟨fun o occurs after upTo => ?_, fun now found => ?_⟩
    · obtain ⟨w, mem, inside⟩ := exists_window after upTo
      refine ⟨w, ⟨mem, (due mem).mpr (some w mem ⟨o, occurs, inside⟩), inside⟩, ?_⟩
      rintro w' ⟨mem', -, inside'⟩
      exact window_unique ordered mem' mem inside' inside
    · obtain ⟨w, mem, rfl⟩ := exists_window_of_look (looks_mem found)
      obtain ⟨o, occurs, late, upTo⟩ := (due mem).mp found
      exact ⟨w, mem, rfl, o, occurs, by omega, upTo⟩

section Missed

-- The due times that passed while the app was not running.
def Missed (routine : Routine) (runs : List Run) (now : Int) : Set Int :=
  { o | routine.rrule.occurs o ∧ lastRun routine runs < o ∧ o ≤ now }

-- The first look of a launch records one missed run, at the latest time that was due, whenever one was.
def MissedOnce (routine : Routine) (runs : List Run) (now : Int) (running : Bool) : Prop :=
  let runs' := (schedulerTick routine { runs } now running).1.runs
  (∀ latest, IsGreatest (Missed routine runs now) latest → runs' = runs ++ [⟨latest, "missed"⟩]) ∧
    (Missed routine runs now = ∅ → runs' = runs)

-- Not all that was missed is within a second of the last run, and it is no more than is asked for.
def Few (routine : Routine) (runs : List Run) (now : Int) : Prop :=
  ((Missed routine runs now).Nonempty → Due routine.rrule (lastRun routine runs, now)) ∧
    (routine.rrule.dates (lastRun routine runs + 1000) now).length ≤ 1000

-- What the first look writes: the last of the dates it is given.
theorem tick_runs {runs : List Run} (running : Bool) :
    (schedulerTick routine { runs } now running).1.runs =
      runs ++ (((routine.rrule.dates (lastRun routine runs + 1000) now).take 1000).getLast?.map (⟨·, "missed"⟩)).toList := by
  unfold schedulerTick
  simp only [occurrences_limited]
  split
  case h_1 latest eq => rw [eq]; rfl
  case h_2 eq => rw [eq]; exact (List.append_nil _).symm

theorem exists_greatest {runs : List Run} (some : (Missed routine runs now).Nonempty) :
    ∃ latest, IsGreatest (Missed routine runs now) latest := by
  obtain ⟨latest, mem, greatest⟩ := Int.exists_greatest_of_bdd (P := (· ∈ Missed routine runs now))
    ⟨now, fun _ missed => missed.2.2⟩ some
  exact ⟨latest, mem, fun _ => greatest _⟩

theorem le_getLast {l : List Int} (ordered : l.Pairwise (· < ·)) (mem : o ∈ l) (last : l.getLast? = some b) : o ≤ b := by
  obtain ⟨init, rfl⟩ := List.getLast?_eq_some_iff.mp last
  rcases List.mem_append.mp mem with mem | mem
  · exact Int.le_of_lt ((List.pairwise_append.mp ordered).2.2 o mem b (List.mem_singleton_self b))
  · exact Int.le_of_eq (List.mem_singleton.mp mem)

theorem missedOnce_iff {runs : List Run} {running : Bool} :
    MissedOnce routine runs now running ↔ Few routine runs now := by
  unfold MissedOnce Few
  simp only [tick_runs]
  generalize from_ : lastRun routine runs + 1000 = first
  have missed {o : Int} (mem : o ∈ routine.rrule.dates first now) : o ∈ Missed routine runs now := by
    obtain ⟨occurs, late, upTo⟩ := routine.rrule.mem.mp mem
    exact ⟨occurs, by omega, upTo⟩
  have ordered := routine.rrule.ordered (a := first) (b := now)
  constructor
  · rintro ⟨atLatest, -⟩
    have recorded {latest : Int} (greatest : IsGreatest (Missed routine runs now) latest) :
        ((routine.rrule.dates first now).take 1000).getLast? = some latest := by
      have := List.append_cancel_left (atLatest latest greatest)
      cases last : ((routine.rrule.dates first now).take 1000).getLast? with
      | none => rw [last] at this; cases this
      | some _ => rw [last] at this; cases this; rfl
    constructor
    · intro some
      obtain ⟨latest, greatest⟩ := exists_greatest some
      have mem := routine.rrule.mem.mp (List.mem_of_mem_take (List.mem_of_getLast? (recorded greatest)))
      exact ⟨latest, from_ ▸ mem⟩
    · by_contra many
      -- A date past the last that is asked for is later than the one recorded.
      obtain ⟨o, past⟩ := List.exists_mem_of_ne_nil ((routine.rrule.dates first now).drop 1000)
        (fun nil => many (List.drop_eq_nil_iff.mp nil))
      obtain ⟨latest, greatest⟩ := exists_greatest ⟨o, missed (List.mem_of_mem_drop past)⟩
      have split := List.take_append_drop 1000 (routine.rrule.dates first now)
      rw [← split, List.pairwise_append] at ordered
      have before := ordered.2.2 latest (List.mem_of_getLast? (recorded greatest)) o past
      exact absurd (greatest.2 (missed (List.mem_of_mem_drop past))) (Int.not_le.mpr before)
  · rintro ⟨some, few⟩
    rw [List.take_of_length_le few]
    constructor
    · intro latest greatest
      obtain ⟨o, occurs, late, upTo⟩ := some ⟨latest, greatest.1⟩
      have after := greatest.2 (missed (routine.rrule.mem.mpr ⟨occurs, from_ ▸ late, upTo⟩))
      have mem : latest ∈ routine.rrule.dates first now :=
        routine.rrule.mem.mpr ⟨greatest.1.1, by dsimp only at late; omega, greatest.1.2.2⟩
      cases last : (routine.rrule.dates first now).getLast? with
      | none => exact absurd mem (List.getLast?_eq_none_iff.mp last ▸ List.not_mem_nil)
      | some x =>
        have eq : latest = x :=
          Int.le_antisymm (le_getLast ordered mem last) (greatest.2 (missed (List.mem_of_getLast? last)))
        rw [eq]
        rfl
    · intro none
      have nil : routine.rrule.dates first now = [] :=
        List.eq_nil_iff_forall_not_mem.mpr fun o mem => by
          have := missed mem
          rw [none] at this
          exact this
      rw [nil]
      exact List.append_nil _

end Missed

-- Looks on whole seconds skip nothing.
theorem whole_seconds (onSecond : ∀ tick ∈ a :: ticks, 1000 ∣ tick) :
    NoneWithinASecond set a ticks ∧ SomeAfterASecond set a ticks := by
  have late {w : Int × Int} {o : Int} (mem : w ∈ windows (a :: ticks)) (occurs : set.occurs o) (after : w.1 < o) :
      w.1 + 1000 ≤ o := by
    have tick := onSecond w.1 (List.of_mem_zip mem).1
    have occurrence := set.seconds occurs
    omega
  constructor
  · exact fun o occurs _ _ w mem after _ => late mem occurs after
  · exact fun w mem ⟨o, occurs, after, upTo⟩ => ⟨o, occurs, late mem occurs after, upTo⟩

-- For which rules and looks the scheduler neither skips nor repeats a due time.
theorem neither_skips_nor_repeats_iff (routine : Routine) (runs : List Run) (first : Int) (running : Bool)
    (later : List (Int × Bool)) (ordered : (first :: later.map Prod.fst).Pairwise (· < ·)) :
    (Partition routine.rrule first (later.map Prod.fst) ∧ DueOnce routine runs first running later ∧
        MissedOnce routine runs first running) ↔
      NoneWithinASecond routine.rrule first (later.map Prod.fst) ∧
        SomeAfterASecond routine.rrule first (later.map Prod.fst) ∧ Few routine runs first :=
  and_congr (partition_iff ordered) (and_congr (dueOnce_iff ordered) missedOnce_iff)

theorem mem_hours {a b t : Int} :
    t ∈ (List.map (fun n : Nat => a + n) (List.range (b + 1 - a).toNat)).filter (3600000 ∣ ·) ↔ 3600000 ∣ t ∧ a ≤ t ∧ t ≤ b := by
  have within : (∃ n : Nat, n < (b + 1 - a).toNat ∧ a + n = t) ↔ a ≤ t ∧ t ≤ b := by
    constructor
    case mp  => rintro ⟨n, hn, rfl⟩; omega
    case mpr => intro bounds; exact ⟨(t - a).toNat, by omega, by omega⟩
  simp only [List.mem_filter, List.mem_map, List.mem_range, decide_eq_true_eq, within]
  exact and_comm

theorem pairwise_hours {a b : Int} :
    ((List.map (fun n : Nat => a + n) (List.range (b + 1 - a).toNat)).filter (3600000 ∣ ·)).Pairwise (· < ·) := by
  apply List.Pairwise.filter
  rw [List.pairwise_map]
  exact List.pairwise_lt_range.imp fun h => by omega

theorem seconds_hours {t : Int} : 3600000 ∣ t → 1000 ∣ t :=
  Int.dvd_trans ⟨3600, by decide⟩

-- Every hour, on the hour.
def hourly : RRuleSet where
  occurs o  := 3600000 ∣ o
  dates a b := (List.map (fun n : Nat => a + n) (List.range (b + 1 - a).toNat)).filter (3600000 ∣ ·)
  mem       := mem_hours
  ordered   := pairwise_hours
  seconds   := seconds_hours

theorem neither_skips_nor_repeats_hourly :
    (Partition hourly 0 [1000] ∧ DueOnce ⟨hourly, 0⟩ [] 0 false [(1000, false)] ∧ MissedOnce ⟨hourly, 0⟩ [] 0 false) ↔
      NoneWithinASecond hourly 0 [1000] ∧ SomeAfterASecond hourly 0 [1000] ∧ Few ⟨hourly, 0⟩ [] 0 :=
  neither_skips_nor_repeats_iff ⟨hourly, 0⟩ [] 0 false [(1000, false)] (by decide)

-- Looks half a second before the hour and just after it: the run on the hour does not start.
theorem hour_skipped : ¬∀ routine runs first running (later : List (Int × Bool)),
    (first :: later.map Prod.fst).Pairwise (· < ·) →
      Partition routine.rrule first (later.map Prod.fst) ∧ DueOnce routine runs first running later ∧
        MissedOnce routine runs first running := by
  intro all
  obtain ⟨-, once, -⟩ := all ⟨hourly, 0⟩ [] 0 false [(3599500, false), (3600600, false)] (by decide)
  have some := (dueOnce_iff (by decide)).mp once
  obtain ⟨o, occurs, late, upTo⟩ := some (3599500, 3600600) (List.mem_cons_of_mem _ List.mem_cons_self)
    ⟨3600000, ⟨1, rfl⟩, by decide, by decide⟩
  obtain ⟨k, rfl⟩ := occurs
  dsimp only at late upTo
  omega

end Kaluta.Routines
