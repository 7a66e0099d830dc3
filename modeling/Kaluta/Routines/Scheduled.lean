import Kaluta.Routines.Schedule

-- Which rules keep their meaning as words and as cron.
namespace Kaluta.Routines

section Cron

variable {p : Parts} {days : List Nat} {shift offset x : Int} {h m n : Nat}

def cronDays (days : List Nat) (shift : Int) : List Nat :=
  (days.map fun (i : Nat) => (((i : Int) + 1 + shift) % 7).toNat).mergeSort

-- The expression of a time on days; all days where there are none.
def clockCron (offset : Int) (days : List Nat) (h m : Nat) : Cron.Expr :=
  let utc := (h : Int) * 60 + m - offset
  { minute  := .list [(utc % 1440 % 60).toNat]
    hour    := .list [(utc % 1440 / 60).toNat]
    weekday := if days = [] then .any else .list (cronDays days (utc / 1440)) }

def hoursCron (offset : Int) (k m : Nat) : Cron.Expr :=
  { minute  := .list [(((m : Int) - offset) % 60).toNat]
    hour    := if 1 < k then .step k else .any
    weekday := .any }

def Parts.cron (p : Parts) (offset : Int) : Option Cron.Expr :=
  match p.freq with
  | "HOURLY" => some (hoursCron offset p.interval (p.minute.getD 0))
  | "DAILY"  => some (clockCron offset p.dayList (p.hour.getD 0) (p.minute.getD 0))
  | "WEEKLY" => some (clockCron offset (RRule.times p.dayList) (p.hour.getD 0) (p.minute.getD 0))
  | _        => none

theorem cronDays_eq_nil : cronDays days shift = [] ↔ days = [] := by
  rw [cronDays, ← List.length_eq_zero_iff, List.length_mergeSort, List.length_map, List.length_eq_zero_iff]

theorem times_ne_nil (list : List Nat) : RRule.times list ≠ [] := by
  rw [RRule.times]
  split
  · exact List.cons_ne_nil _ _
  · assumption

theorem cronDays_monday : ",".intercalate ((cronDays [0] shift).map toString) = toString ((1 + shift) % 7).toNat := by
  rw [cronDays, List.map_singleton, List.mergeSort_singleton, List.map_singleton, String.intercalate_singleton]
  rfl

theorem mem_cronDays : (∃ d ∈ cronDays days shift, (d : Int) = x) ↔ ∃ i ∈ days, ((i : Int) + 1 + shift) % 7 = x := by
  have toNat (i : Nat) : ((((i : Int) + 1 + shift) % 7).toNat : Int) = ((i : Int) + 1 + shift) % 7 :=
    Int.toNat_of_nonneg (Int.emod_nonneg _ (by decide))
  simp only [cronDays, List.mem_mergeSort, List.mem_map]
  constructor
  · rintro ⟨_, ⟨i, hi, rfl⟩, eq⟩
    exact ⟨i, hi, toNat i ▸ eq⟩
  · rintro ⟨i, hi, eq⟩
    exact ⟨_, ⟨i, hi, rfl⟩, toNat i ▸ eq⟩

theorem clockCron_named : Cron.Expr.read (clockCron offset days h m).text = some (clockCron offset days h m) := by
  refine Cron.Expr.read_text (List.cons_ne_nil _ _) (List.cons_ne_nil _ _) ?_
  rw [clockCron]
  split
  · trivial
  case isFalse ne => exact fun nil => ne (cronDays_eq_nil.mp nil)

theorem hoursCron_named {k : Nat} : Cron.Expr.read (hoursCron offset k m).text = some (hoursCron offset k m) := by
  refine Cron.Expr.read_text (List.cons_ne_nil _ _) ?_ trivial
  rw [hoursCron]
  split <;> trivial

theorem allows_toNat {x b : Int} (hb : b ≠ 0) : (Cron.Field.list [(x % b).toNat]).Allows (x % b) :=
  ⟨_, List.mem_singleton.mpr rfl, Int.toNat_of_nonneg (Int.emod_nonneg _ hb)⟩

theorem exists_clockCron (offset : Int) (days : List Nat) (h m : Nat) (start : Int) :
    ∃ n : Nat, (clockCron offset days h m).Fires (start + n) := by
  generalize hu : (h : Int) * 60 + m - offset = utc
  have minute : (clockCron offset days h m).minute.Allows (utc % 1440 % 60) := by
    rw [clockCron, hu]
    exact allows_toNat (by decide)
  have hour : (clockCron offset days h m).hour.Allows (utc % 1440 / 60) := by
    rw [clockCron, hu]
    exact ⟨_, List.mem_singleton.mpr rfl, Int.toNat_of_nonneg (by omega)⟩
  obtain ⟨d, weekday, hd⟩ : ∃ d : Int, (clockCron offset days h m).weekday.Allows d ∧ 0 ≤ d ∧ d < 7 := by
    rw [clockCron, hu]
    split
    · exact ⟨0, trivial, by decide⟩
    case isFalse ne =>
      obtain ⟨i, is, eq⟩ := List.exists_cons_of_ne_nil ne
      refine ⟨((i : Int) + 1 + utc / 1440) % 7, mem_cronDays.mpr ⟨i, eq ▸ List.mem_cons_self, rfl⟩, ?_⟩
      omega
  exact Cron.Expr.exists_fires minute hour weekday (by omega) (by omega) hd start

theorem exists_hoursCron (offset : Int) (k m : Nat) (start : Int) :
    ∃ n : Nat, (hoursCron offset k m).Fires (start + n) := by
  have hour : (hoursCron offset k m).hour.Allows 0 := by
    rw [hoursCron]
    split
    · exact Int.dvd_zero _
    · trivial
  have weekday : (hoursCron offset k m).weekday.Allows 0 := trivial
  exact Cron.Expr.exists_fires (allows_toNat (by decide)) hour weekday (by omega) (by decide) (by decide) start

theorem read_cron {e : Cron.Expr} (he : p.cron offset = some e) : Cron.Expr.read e.text = some e := by
  rw [Parts.cron] at he
  split at he
  · cases he; exact hoursCron_named
  · cases he; exact clockCron_named
  · cases he; exact clockCron_named
  · cases he

theorem text_clockCron (h m : Nat) :
    (clockCron offset days h m).text =
      toString (((h : Int) * 60 + m - offset) % 1440 % 60).toNat ++ " " ++
        toString (((h : Int) * 60 + m - offset) % 1440 / 60).toNat ++ " * * " ++
        if days = [] then "*"
        else ",".intercalate ((cronDays days (((h : Int) * 60 + m - offset) / 1440)).map toString) := by
  rw [clockCron, Cron.Expr.text, Cron.text_one, Cron.text_one]
  split <;> rfl

theorem cron_none (offset : Int) (hourly : p.freq ≠ "HOURLY") (daily : p.freq ≠ "DAILY") (weekly : p.freq ≠ "WEEKLY") :
    p.cron offset = none := by
  rw [Parts.cron]
  split
  case h_1 h => exact absurd h hourly
  case h_2 h => exact absurd h daily
  case h_3 h => exact absurd h weekly
  case h_4 => rfl

theorem toUtcCron_eq {library : String → Except String RRule} {rule : String} {r : RRule}
    (accepted : set library rule = .ok r) :
    toUtcCron library offset rule =
      ((parts rule).cron offset).elim
        (.error ((parts rule).freq ++ " schedules cannot run on Claude cloud (hourly minimum)"))
        fun e => .ok e.text := by
  have valid : validate library rule = .ok () := by rw [validate, accepted]; rfl
  rw [toUtcCron, valid]
  generalize parts rule = p
  simp only [bind, Except.bind]
  split
  case h_1 hourly =>
    have cron : p.cron offset = some (hoursCron offset p.interval (p.minute.getD 0)) := by
      simp only [Parts.cron, hourly]
    rw [cron, Option.elim_some, hoursCron, Cron.Expr.text, Cron.text_one]
    split
    all_goals
      rw [← show " * * " ++ "*" = " * * *" from rfl, ← String.append_assoc]
      rfl
  case h_2 daily =>
    have cron : p.cron offset = some (clockCron offset p.dayList (p.hour.getD 0) (p.minute.getD 0)) := by
      simp only [Parts.cron, daily]
    rw [cron, Option.elim_some, text_clockCron, daily, if_neg (show ¬"DAILY" = "WEEKLY" by decide)]
    exact congrArg Except.ok (congrArg (HAppend.hAppend _) (if_congr cronDays_eq_nil rfl rfl))
  case h_3 weekly =>
    have cron : p.cron offset = some (clockCron offset (RRule.times p.dayList) (p.hour.getD 0) (p.minute.getD 0)) := by
      simp only [Parts.cron, weekly]
    rw [cron, Option.elim_some, text_clockCron, if_pos weekly, if_neg (times_ne_nil _)]
    refine congrArg Except.ok (congrArg (HAppend.hAppend _) ?_)
    rw [RRule.times]
    split
    case isTrue nil  =>
      have empty : p.dayList = [] := cronDays_eq_nil.mp nil
      rw [if_pos empty, cronDays_monday]
    case isFalse ne =>
      have some : p.dayList ≠ [] := fun nil => ne (cronDays_eq_nil.mpr nil)
      rw [if_neg some]
      rfl
  case h_4 hourly daily weekly =>
    rw [cron_none offset hourly daily weekly]
    rfl

end Cron

section Meaning

variable {others : RRule → Nat → Prop} {r : RRule} {p : Parts} {days : Days} {offset : Int} {k h m n : Nat}

-- The time of day in UTC moves the days of the week when it passes midnight.
theorem fires_clockCron {ds : List Nat} (hh : h < 24) (hm : m < 60) (hds : ∀ d ∈ ds, d < 7) :
    (clockCron offset ds h m).Fires (anchor - offset + n) ↔
      (ds = [] ∨ n / 1440 % 7 ∈ ds) ∧ n / 60 % 24 = h ∧ n % 60 = m := by
  have time : (clockCron offset ds h m).minute.Allows ((anchor - offset + n) % 60) ∧
      (clockCron offset ds h m).hour.Allows ((anchor - offset + n) / 60 % 24) ↔ n / 60 % 24 = h ∧ n % 60 = m := by
    simp only [clockCron, Cron.Field.Allows, List.mem_singleton, exists_eq_left, anchor]
    omega
  have weekday (time : n / 60 % 24 = h ∧ n % 60 = m) :
      (clockCron offset ds h m).weekday.Allows (((anchor - offset + n) / 1440 + 4) % 7) ↔
        ds = [] ∨ n / 1440 % 7 ∈ ds := by
    rw [clockCron]
    split
    case isTrue nil  => exact iff_of_true trivial (.inl nil)
    case isFalse ne =>
      rw [or_iff_right ne, Cron.Field.Allows, mem_cronDays]
      have same {i : Nat} (hi : i < 7) :
          ((i : Int) + 1 + ((h : Int) * 60 + m - offset) / 1440) % 7 = ((anchor - offset + n) / 1440 + 4) % 7 ↔
            n / 1440 % 7 = i := by
        rw [anchor]
        omega
      constructor
      · rintro ⟨i, hi, eq⟩
        exact (same (hds i hi)).mp eq ▸ hi
      · exact fun hi => ⟨_, hi, (same (hds _ hi)).mpr rfl⟩
  rw [Cron.Expr.Fires, ← and_assoc, time, and_comm]
  exact and_congr_left weekday

theorem fires_hoursCron (hm : m < 60) :
    (hoursCron offset k m).Fires (anchor - offset + n) ↔
      ((max 1 k : Nat) : Int) ∣ ((n / 60 : Nat) + (m - offset) / 60) % 24 ∧ n % 60 = m := by
  have minute : (hoursCron offset k m).minute.Allows ((anchor - offset + n) % 60) ↔ n % 60 = m := by
    simp only [hoursCron, Cron.Field.Allows, List.mem_singleton, exists_eq_left, anchor]
    omega
  have hour (eq : n % 60 = m) : (anchor - offset + n) / 60 % 24 = ((n / 60 : Nat) + (m - offset) / 60) % 24 := by
    rw [anchor]
    omega
  rw [Cron.Expr.Fires, minute, and_comm]
  refine and_congr_left fun eq => ?_
  rw [hour eq, hoursCron]
  split
  case isTrue many => simp [Cron.Field.Allows, Nat.max_eq_right many.le]
  case isFalse one => simp [Cron.Field.Allows, Nat.max_eq_left (Nat.not_lt.mp one)]

theorem member_of_all {list : List Nat} {x : Nat} (all : ∀ y ∈ RRule.times list, y = x) : x ∈ RRule.times list := by
  obtain ⟨y, ys, eq⟩ := List.exists_cons_of_ne_nil (times_ne_nil list)
  have first : y ∈ RRule.times list := eq ▸ List.mem_cons_self
  exact all y first ▸ first

-- The times of a daily or weekly rule are one time exactly when all its hours and minutes are the same.
theorem clock_iff (one : ∃ d < 7, days.Has d) (hh : h < 24) (hm : m < 60) (hour : ∀ x ∈ RRule.times r.byHour, x < 24)
    (minute : ∀ x ∈ RRule.times r.byMinute, x < 60) :
    (∀ n, (Words.clock days h m).Means n ↔
        r.OnDay (n / 1440) ∧ n / 60 % 24 ∈ RRule.times r.byHour ∧ n % 60 ∈ RRule.times r.byMinute) ↔
      (∀ x ∈ RRule.times r.byHour, x = h) ∧ (∀ x ∈ RRule.times r.byMinute, x = m) ∧
        ∀ day, days.Has (day % 7) ↔ r.OnDay day := by
  have split (day : Nat) {a b : Nat} (ha : a < 24) (hb : b < 60) :
      (day * 1440 + a * 60 + b) / 1440 = day ∧ (day * 1440 + a * 60 + b) / 60 % 24 = a ∧
        (day * 1440 + a * 60 + b) % 60 = b := by
    omega
  constructor
  · intro same
    have moment (day : Nat) {a b : Nat} (ha : a < 24) (hb : b < 60) : days.Has (day % 7) ∧ a = h ∧ b = m ↔
        r.OnDay day ∧ a ∈ RRule.times r.byHour ∧ b ∈ RRule.times r.byMinute := by
      have := same (day * 1440 + a * 60 + b)
      rwa [Words.Means, (split day ha hb).1, (split day ha hb).2.1, (split day ha hb).2.2] at this
    obtain ⟨d, hd, has⟩ := one
    obtain ⟨day, inHours, inMinutes⟩ := (moment d hh hm).mp ⟨(Nat.mod_eq_of_lt hd).symm ▸ has, rfl, rfl⟩
    refine ⟨fun x hx => ?_, fun x hx => ?_, fun D => ?_⟩
    · exact ((moment d (hour x hx) hm).mpr ⟨day, hx, inMinutes⟩).2.1
    · exact ((moment d hh (minute x hx)).mpr ⟨day, inHours, hx⟩).2.2
    · exact ⟨fun has => ((moment D hh hm).mp ⟨has, rfl, rfl⟩).1,
        fun onDay => ((moment D hh hm).mpr ⟨onDay, inHours, inMinutes⟩).1⟩
  · rintro ⟨hours, minutes, onDay⟩ n
    rw [Words.Means, onDay]
    refine and_congr_right fun _ => and_congr ?_ ?_
    · exact ⟨fun eq => eq ▸ member_of_all hours, hours _⟩
    · exact ⟨fun eq => eq ▸ member_of_all minutes, minutes _⟩

-- How long the days of a rule take to come round at most where every week is the same.
def RRule.Weeks (r : RRule) : Prop :=
  if r.freq = .weekly then r.interval = 1 else r.interval ∣ 7

instance (r : RRule) : Decidable r.Weeks :=
  inferInstanceAs (Decidable (if r.freq = .weekly then r.interval = 1 else r.interval ∣ 7))

theorem onDay_iff (one : ∃ d < 7, days.Has d) :
    (∀ day, days.Has (day % 7) ↔ r.OnDay day) ↔ r.Weeks ∧ ∀ d < 7, days.Has d ↔ r.OnDay d := by
  constructor
  · intro same
    refine ⟨?_, fun d hd => by rw [← same d, Nat.mod_eq_of_lt hd]⟩
    obtain ⟨d, hd, has⟩ := one
    have first : r.OnDay d := (same d).mp ((Nat.mod_eq_of_lt hd).symm ▸ has)
    have second : r.OnDay (d + 7) := (same (d + 7)).mp (by rwa [Nat.add_mod_right, Nat.mod_eq_of_lt hd])
    rw [RRule.OnDay] at first second
    rw [RRule.Weeks]
    split
    case isTrue weekly =>
      simp only [weekly] at first second
      rw [Nat.add_div_right _ (by decide)] at second
      exact Nat.dvd_one.mp ((Nat.dvd_add_right first.1).mp second.1)
    case isFalse notWeekly =>
      cases hf : r.freq
      case weekly => exact absurd hf notWeekly
      all_goals
        simp only [hf] at first second
        exact (Nat.dvd_add_right first.1).mp second.1
  · rintro ⟨weeks, same⟩ day
    rw [same _ (Nat.mod_lt _ (by decide)), RRule.OnDay, RRule.OnDay, Nat.mod_mod]
    rw [RRule.Weeks] at weeks
    cases hf : r.freq
    case weekly =>
      rw [if_pos hf] at weeks
      simp only [weeks, Nat.one_dvd]
    all_goals
      rw [if_neg (by rw [hf]; exact nofun)] at weeks
      simp only [Nat.dvd_mod_iff weeks]

-- Cron counts the hours of a step from midnight of each day in UTC.
theorem hoursCron_iff (hm : m < 60) :
    (∀ n : Nat, (hoursCron offset k m).Fires (anchor - offset + n) ↔ (Words.hours (max 1 k) m).Means n) ↔
      max 1 k ∣ 24 ∧ ((max 1 k : Nat) : Int) ∣ (m - offset) / 60 := by
  simp only [fires_hoursCron hm, Words.Means]
  generalize max 1 k = K
  generalize ((m : Int) - offset) / 60 = Q
  have time (q : Nat) : (q * 60 + m) / 60 = q ∧ (q * 60 + m) % 60 = m := by omega
  have across {x : Int} (day : K ∣ 24) : (K : Int) ∣ x % 24 ↔ (K : Int) ∣ x := by
    have whole : (K : Int) ∣ 24 := Int.natCast_dvd_natCast.mpr day
    rw [Int.dvd_iff_emod_eq_zero, Int.emod_emod_of_dvd x whole, Int.dvd_iff_emod_eq_zero]
  constructor
  · intro same
    have hour (q : Nat) : (K : Int) ∣ (q + Q) % 24 ↔ K ∣ q := by
      have := same (q * 60 + m)
      rwa [(time q).1, (time q).2, and_iff_left rfl, and_iff_left rfl] at this
    have midnight : (K : Int) ∣ Q % 24 := by
      have := (hour 0).mpr (Nat.dvd_zero K)
      rwa [Int.natCast_zero, Int.zero_add] at this
    have day : K ∣ 24 := by
      refine (hour 24).mp ?_
      rwa [show ((24 : Nat) : Int) + Q = Q + 24 by omega, Int.add_emod_right]
    exact ⟨day, (across day).mp midnight⟩
  · rintro ⟨day, midnight⟩ n
    rw [across day, Int.dvd_add_left midnight, Int.natCast_dvd_natCast]

theorem hours_iff {K : Nat} (day : K ∣ 24) (hm : m < 60) (minute : ∀ x ∈ RRule.times r.byMinute, x < 60)
    (hf : r.freq = .hourly) :
    (∀ n, (Words.hours K m).Means n ↔ r.Occurs others n) ↔
      (∀ x ∈ RRule.times r.byMinute, x = m) ∧ r.interval ∣ 24 ∧ (∀ d < 7, r.Day d) ∧
        ∀ h < 24, K ∣ h ↔ r.interval ∣ h ∧ r.Hour h := by
  simp only [Words.Means, RRule.Occurs, hf]
  have time (q : Nat) {x : Nat} (hx : x < 60) :
      (q * 60 + x) / 60 = q ∧ (q * 60 + x) % 60 = x ∧ (q * 60 + x) / 1440 = q / 24 := by omega
  constructor
  · intro same
    have hour (q : Nat) {x : Nat} (hx : x < 60) : K ∣ q ∧ x = m ↔
        r.interval ∣ q ∧ r.Day (q / 24 % 7) ∧ r.Hour (q % 24) ∧ x ∈ RRule.times r.byMinute := by
      have := same (q * 60 + x)
      rwa [(time q hx).1, (time q hx).2.1, (time q hx).2.2] at this
    have midnight (d : Nat) := (hour (24 * d) hm).mp ⟨day.mul_right d, rfl⟩
    have inMinutes := (midnight 0).2.2.2
    have days (d : Nat) (hd : d < 7) : r.Day d := by
      have := (midnight d).2.1
      rwa [Nat.mul_div_cancel_left _ (by decide), Nat.mod_eq_of_lt hd] at this
    refine ⟨fun x hx => ?_, (midnight 1).1, days, fun h hh => ?_⟩
    · exact ((hour 0 (minute x hx)).mpr ⟨Nat.dvd_zero _, (midnight 0).2.1, (midnight 0).2.2.1, hx⟩).2
    · have := hour h hm
      rw [Nat.div_eq_of_lt hh, Nat.mod_eq_of_lt hh, and_iff_left rfl] at this
      rw [this]
      exact and_congr_right fun _ =>
        ⟨fun ⟨_, inHours, _⟩ => inHours, fun inHours => ⟨days 0 (by decide), inHours, inMinutes⟩⟩
  · rintro ⟨minutes, interval, days, hours⟩ n
    have step : K ∣ n / 60 ↔ r.interval ∣ n / 60 ∧ r.Hour (n / 60 % 24) := by
      have := hours (n / 60 % 24) (Nat.mod_lt _ (by decide))
      rwa [Nat.dvd_mod_iff day, Nat.dvd_mod_iff interval] at this
    rw [step, and_assoc]
    refine and_congr_right fun _ => ?_
    rw [and_iff_right (days _ (Nat.mod_lt _ (by decide)))]
    exact and_congr_right fun _ => ⟨fun eq => eq ▸ member_of_all minutes, minutes _⟩

end Meaning

-- The schedule of a rule: its cron fires at its occurrences, and its words are those of its schedule.
section Kept

def Frequency.text : Frequency → String
  | yearly   => "YEARLY"
  | monthly  => "MONTHLY"
  | weekly   => "WEEKLY"
  | daily    => "DAILY"
  | hourly   => "HOURLY"
  | minutely => "MINUTELY"
  | secondly => "SECONDLY"

-- The library reads the frequency that a rule names.
def ReadsFrequency (library : String → Except String RRule) : Prop :=
  ∀ rule r f, set library rule = .ok r → (parts rule).freq = f.text → r.freq = f

structure Kept (library : String → Except String RRule) (others : RRule → Nat → Prop) (offset : Int) (rule : String)
    (r : RRule) : Prop where
  cron  : ∀ text, toUtcCron library offset rule = .ok text →
    ∃ e, Cron.Expr.read text = some e ∧ ∀ n : Nat, e.Fires (anchor - offset + n) ↔ r.Occurs others n
  words : describe rule = rule ∨ ∃ w, Words.read (describe rule) = some w ∧ ∀ n, w.Means n ↔ r.Occurs others n

-- All hours and all minutes of the rule are the first ones.
def Parts.OneTime (p : Parts) (r : RRule) : Prop :=
  (∀ x ∈ RRule.times r.byHour, x = p.hour.getD 0) ∧ ∀ x ∈ RRule.times r.byMinute, x = p.minute.getD 0

instance (p : Parts) (r : RRule) : Decidable (p.OneTime r) :=
  inferInstanceAs (Decidable (_ ∧ _))

-- An hourly rule whose hours are the same on each day, in local time and in UTC.
structure Parts.HoursExact (p : Parts) (r : RRule) (offset : Int) : Prop where
  minutes  : ∀ x ∈ RRule.times r.byMinute, x = p.minute.getD 0
  day      : max 1 p.interval ∣ 24
  interval : r.interval ∣ 24
  shift    : ((max 1 p.interval : Nat) : Int) ∣ (p.minute.getD 0 - offset) / 60
  days     : ∀ d < 7, r.Day d
  hours    : ∀ h < 24, max 1 p.interval ∣ h ↔ r.interval ∣ h ∧ r.Hour h

def Parts.Exact (p : Parts) (r : RRule) (offset : Int) : Prop :=
  match p.freq with
  | "HOURLY" => p.HoursExact r offset
  | "DAILY"  => p.OneTime r ∧ r.Weeks ∧ ∀ d < 7, (p.named false .every).Has d ↔ r.OnDay d
  | "WEEKLY" => p.OneTime r ∧ r.Weeks ∧ ∀ d < 7, (p.named true (.only true [0])).Has d ↔ r.OnDay d
  | _        => True

variable {library : String → Except String RRule} {others : RRule → Nat → Prop} {offset : Int} {rule : String}
variable {r : RRule} {p : Parts} {w : Words} {e : Cron.Expr} {days : Days} {h m n : Nat}

theorem mem_of_mem_bareRule {c : Char} {cs : List Char} (hc : c ∈ bareRule cs) : c ∈ cs := by
  induction cs using bareRule.induct
  case case1 cs ih =>
    rw [bareRule] at hc
    simp only [List.mem_cons]
    exact .inr (.inr (.inr (.inr (.inr (.inr (ih hc))))))
  case case2 cs plain => rwa [bareRule.eq_2 cs plain] at hc

theorem mem_of_mem_bare {c : Char} (hc : c ∈ (bare rule).toList) : c ∈ rule.toList := by
  rw [bare, String.toList_ofList] at hc
  have := mem_of_mem_bareRule hc
  rw [Guide.trim, String.toList_ofList, List.mem_reverse] at this
  exact (List.dropWhile_suffix _).subset (List.mem_reverse.mp ((List.dropWhile_suffix _).subset this))

theorem mem_of_mem_splitOn {c sep : Char} {item cs : List Char} (hi : item ∈ cs.splitOn sep) (hc : c ∈ item) :
    c ∈ cs := by
  have mem {ls : List (List Char)} (hi : item ∈ ls) : c ∈ [sep].intercalate ls := by
    induction ls
    case nil          => exact absurd hi List.not_mem_nil
    case cons l ls ih =>
      cases ls
      case nil       => exact List.intercalate_singleton ▸ List.mem_singleton.mp hi ▸ hc
      case cons k ls =>
        rw [List.intercalate_cons_cons, List.mem_append]
        rcases List.mem_cons.mp hi with rfl | hi
        · exact .inl (List.mem_append_left _ hc)
        · exact .inr (ih hi)
  have whole := mem hi
  rwa [List.intercalate_splitOn] at whole

theorem equals_of_freq (h : (parts rule).freq ≠ "") : '=' ∈ rule.toList := by
  by_contra none
  have items : ∀ kv ∈ (bare rule).toList.splitOn ';', '=' ∉ kv :=
    fun kv hkv mem => none (mem_of_mem_bare (mem_of_mem_splitOn hkv mem))
  have unread {l : List (List Char)} (hl : ∀ kv ∈ l, '=' ∉ kv) : l.foldl Parts.item {} = {} := by
    induction l
    case nil           => rfl
    case cons kv l ih =>
      have skipped : Parts.item {} kv = {} := by
        rw [Parts.item]
        split
        · rfl
        case h_2 k v cut =>
          have whole := splitOnce_eq cut
          exact absurd (whole ▸ List.mem_append_right _ List.mem_cons_self) (hl kv List.mem_cons_self)
      rw [List.foldl_cons, skipped]
      exact ih fun kv hkv => hl kv (List.mem_cons_of_mem _ hkv)
  exact h (congrArg Parts.freq (unread items))

theorem dayList_lt {d : Nat} (hd : d ∈ p.dayList) : d < 7 := by
  obtain ⟨_, _, eq⟩ := List.mem_filterMap.mp hd
  exact dayIndex_lt eq

theorem words_proper (hw : p.words = some w) : w.Proper := by
  have named (each : Bool) {otherwise : Days} (proper : ∀ h m, (Words.clock otherwise h m).Proper) (h m : Nat) :
      (Words.clock (p.named each otherwise) h m).Proper := by
    rw [Parts.named]
    split
    · exact .weekdays
    · split
      · exact proper h m
      case isFalse ne => exact .only ne fun _ => dayList_lt
  rw [Parts.words] at hw
  split at hw
  · cases hw; exact .hours (Nat.le_max_left 1 _)
  · cases hw; exact named false (fun _ _ => .every) _ _
  · cases hw; exact named true (fun _ _ => .only (List.cons_ne_nil _ _) (by decide)) _ _
  · cases hw

-- A rule that has cron and words keeps its meaning when both are its schedule.
theorem kept_iff (accepted : set library rule = .ok r) (hw : (parts rule).words = some w)
    (he : (parts rule).cron offset = some e) :
    Kept library others offset rule r ↔
      (∀ n : Nat, e.Fires (anchor - offset + n) ↔ w.Means n) ∧ ∀ n, w.Means n ↔ r.Occurs others n := by
  have text : describe rule = w.text := by rw [describe_eq, hw, Option.elim_some]
  have cron : toUtcCron library offset rule = .ok e.text := by rw [toUtcCron_eq accepted, he, Option.elim_some]
  have named : (parts rule).freq ≠ "" := by
    intro none
    rw [Parts.words, none] at hw
    cases hw
  constructor
  · intro kept
    obtain ⟨e', read, fires⟩ := kept.cron _ cron
    obtain rfl : e = e' := Option.some.inj ((read_cron he).symm.trans read)
    have means : ∀ n, w.Means n ↔ r.Occurs others n := by
      rcases kept.words with same | ⟨w', read, means⟩
      · have equals := equals_of_freq named
        rw [← same, text] at equals
        exact absurd equals w.equals_not_mem
      · rw [text, Words.read_text (words_proper hw)] at read
        exact Option.some.inj read ▸ means
    exact ⟨fun n => (fires n).trans (means n).symm, means⟩
  · rintro ⟨fires, means⟩
    refine ⟨fun t ht => ⟨e, ?_, fun n => (fires n).trans (means n)⟩, .inr ⟨w, ?_, means⟩⟩
    · rw [cron] at ht
      exact Except.ok.inj ht ▸ read_cron he
    · rw [text, Words.read_text (words_proper hw)]

theorem has_named (each : Bool) {otherwise : Days} (one : ∃ d < 7, otherwise.Has d) :
    ∃ d < 7, (p.named each otherwise).Has d := by
  rw [Parts.named]
  split
  · exact ⟨0, by decide, Nat.succ_pos 4⟩
  · split
    · exact one
    case isFalse ne =>
      obtain ⟨d, ds, eq⟩ := List.exists_cons_of_ne_nil ne
      have first : d ∈ p.dayList := eq ▸ List.mem_cons_self
      exact ⟨d, dayList_lt first, first⟩

theorem times_lt {list : List Nat} {x bound : Nat} (hx : x ∈ RRule.times list) (all : ∀ {y}, y ∈ list → y < bound)
    (pos : 0 < bound) : x < bound := by
  rw [RRule.times] at hx
  split at hx
  · exact List.mem_singleton.mp hx ▸ pos
  · exact all hx

-- Words and cron name the same days.
theorem has_dayList (each : Bool) {otherwise : Days} (ds : List Nat) (some : p.dayList ≠ [] → ds = p.dayList)
    (none : p.dayList = [] → (∀ d, otherwise.Has d ↔ ds = [] ∨ d ∈ ds)) (d : Nat) :
    (p.named each otherwise).Has d ↔ ds = [] ∨ d ∈ ds := by
  rw [Parts.named]
  split
  case isTrue week =>
    have five {d : Nat} : d ∈ p.dayList ↔ d < 5 := mem_weekdays week.1 week.2
    have ne : p.dayList ≠ [] := List.ne_nil_of_mem (five.mpr (by decide : 0 < 5))
    rw [some ne, or_iff_right ne, five]
    rfl
  · split
    case isTrue nil => exact none nil d
    case isFalse ne =>
      rw [some ne, or_iff_right ne]
      rfl

-- Rules of one time a day.
theorem kept_clock_iff {each : Bool} {otherwise : Days} {ds : List Nat} (accepted : set library rule = .ok r)
    (hw : (parts rule).words = some (.clock ((parts rule).named each otherwise) h m))
    (he : (parts rule).cron offset = some (clockCron offset ds h m)) (hds : ∀ d ∈ ds, d < 7)
    (one : ∃ d < 7, otherwise.Has d) (same : ∀ d, ((parts rule).named each otherwise).Has d ↔ ds = [] ∨ d ∈ ds)
    (hf : r.freq = .daily ∨ r.freq = .weekly) :
    Kept library others offset rule r ↔
      ((∀ x ∈ RRule.times r.byHour, x = h) ∧ ∀ x ∈ RRule.times r.byMinute, x = m) ∧ r.Weeks ∧
        ∀ d < 7, ((parts rule).named each otherwise).Has d ↔ r.OnDay d := by
  have occurs (n : Nat) : r.Occurs others n ↔
      r.OnDay (n / 1440) ∧ n / 60 % 24 ∈ RRule.times r.byHour ∧ n % 60 ∈ RRule.times r.byMinute := by
    rcases hf with hf | hf <;> rw [RRule.Occurs, hf]
  have hour : ∀ x ∈ RRule.times r.byHour, x < 24 := fun x hx => times_lt hx r.hours (by decide)
  have minute : ∀ x ∈ RRule.times r.byMinute, x < 60 := fun x hx => times_lt hx r.minutes (by decide)
  rw [kept_iff accepted hw he, ← onDay_iff (has_named each one)]
  simp only [occurs]
  constructor
  · rintro ⟨fires, means⟩
    obtain ⟨n, fired⟩ := exists_clockCron offset ds h m (anchor - offset)
    obtain ⟨-, rfl, rfl⟩ := (fires n).mp fired
    have hh : n / 60 % 24 < 24 := Nat.mod_lt _ (by decide)
    have hm : n % 60 < 60 := Nat.mod_lt _ (by decide)
    have := (clock_iff (has_named each one) hh hm hour minute).mp means
    exact ⟨⟨this.1, this.2.1⟩, this.2.2⟩
  · rintro ⟨⟨hours, minutes⟩, days⟩
    have hh : h < 24 := hour h (member_of_all hours)
    have hm : m < 60 := minute m (member_of_all minutes)
    refine ⟨fun n => ?_, (clock_iff (has_named each one) hh hm hour minute).mpr ⟨hours, minutes, days⟩⟩
    rw [fires_clockCron hh hm hds, Words.Means, same]

theorem kept_hours_iff (accepted : set library rule = .ok r) (hourly : (parts rule).freq = "HOURLY")
    (hf : r.freq = .hourly) :
    Kept library others offset rule r ↔ (parts rule).HoursExact r offset := by
  have hw : (parts rule).words = some (.hours (max 1 (parts rule).interval) ((parts rule).minute.getD 0)) := by
    simp only [Parts.words, hourly]
  have he : (parts rule).cron offset = some (hoursCron offset (parts rule).interval ((parts rule).minute.getD 0)) := by
    simp only [Parts.cron, hourly]
  have minute : ∀ x ∈ RRule.times r.byMinute, x < 60 := fun x hx => times_lt hx r.minutes (by decide)
  rw [kept_iff accepted hw he]
  constructor
  · rintro ⟨fires, means⟩
    have hm : (parts rule).minute.getD 0 < 60 := by
      obtain ⟨n, fired⟩ := exists_hoursCron offset (parts rule).interval ((parts rule).minute.getD 0) (anchor - offset)
      rw [← ((fires n).mp fired).2]
      exact Nat.mod_lt _ (by decide)
    obtain ⟨day, shift⟩ := (hoursCron_iff hm).mp fires
    obtain ⟨minutes, interval, days, hours⟩ := (hours_iff day hm minute hf).mp means
    exact ⟨minutes, day, interval, shift, days, hours⟩
  · rintro ⟨minutes, day, interval, shift, days, hours⟩
    have hm := minute _ (member_of_all minutes)
    exact ⟨(hoursCron_iff hm).mpr ⟨day, shift⟩, (hours_iff day hm minute hf).mpr ⟨minutes, interval, days, hours⟩⟩

-- Every second week: the cron and the words are those of every week.
def fortnight : String :=
  "FREQ=WEEKLY;INTERVAL=2;BYDAY=MO;BYHOUR=9;BYMINUTE=0"

def fortnightly : RRule :=
  { freq := .weekly, interval := 2, byWeekday := [0], byHour := [9], byMinute := [0], positive := by decide,
    hours := by simp, minutes := by simp }

def workdays : String :=
  "FREQ=WEEKLY;BYDAY=MO,TU,WE,TH,FR;BYHOUR=8;BYMINUTE=30"

def workday : RRule :=
  { freq := .weekly, interval := 1, byWeekday := [0, 1, 2, 3, 4], byHour := [8], byMinute := [30],
    positive := by decide, hours := by simp, minutes := by simp }

def twoRules (rule : String) : Except String RRule :=
  if rule = fortnight then .ok fortnightly else if rule = workdays then .ok workday else .error "not one of the two"

theorem twoRules_reads : ReadsFrequency twoRules := by
  intro rule r f hr hf
  have weekly {text : String} (eq : bare rule = text)
      (freq : ((text.toList.splitOn ';').foldl Parts.item {}).freq = "WEEKLY") :
      f = .weekly := by
    rw [parts, eq, freq] at hf
    cases f <;> first | rfl | exact absurd hf (by decide)
  rw [set, twoRules] at hr
  split at hr
  case isTrue eq  =>
    cases hr
    exact (weekly eq (by decide +kernel)).symm
  case isFalse =>
    split at hr
    case isTrue eq  =>
      cases hr
      exact (weekly eq (by decide +kernel)).symm
    case isFalse => cases hr

end Kept

end Kaluta.Routines
