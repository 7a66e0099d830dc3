import Mathlib.Tactic.IntervalCases
import Mathlib.Tactic.Ring
import Kaluta.Search.Parse

-- Dates without a date crate: three copies of one function, and the one that goes back.
namespace Kaluta.Dates

def isLeap (y : Int) : Prop :=
  y % 4 = 0 ∧ (y % 100 ≠ 0 ∨ y % 400 = 0)

instance : Decidable (isLeap y) :=
  inferInstanceAs (Decidable (_ ∧ _))

def daysInMonth (y m : Int) : Int :=
  if m = 2 then
    if isLeap y then 29 else 28
  else if m = 4 ∨ m = 6 ∨ m = 9 ∨ m = 11 then
    30
  else
    31

-- A date of the calendar.
structure CalendarDate (y m d : Int) : Prop where
  month : 1 ≤ m ∧ m ≤ 12
  day   : 1 ≤ d ∧ d ≤ daysInMonth y m

-- `(year, month, day)` for days since 1970-01-01.
def civilFromDays (z : Int) : Int × Int × Int :=
  let z   := z + 719468
  let era := z / 146097
  let doe := z - era * 146097
  let yoe := (doe - doe / 1460 + doe / 36524 - doe / 146096) / 365
  let doy := doe - (365 * yoe + yoe / 4 - yoe / 100)
  let mp  := (5 * doy + 2) / 153
  let d   := doy - (153 * mp + 2) / 5 + 1
  let m   := if mp < 10 then mp + 3 else mp - 9
  (yoe + era * 400 + (if m ≤ 2 then 1 else 0), m, d)

namespace Cleanup

def daysFromCivil (y m d : Int) : Int :=
  let y   := if m ≤ 2 then y - 1 else y
  let era := y / 400
  let yoe := y - era * 400
  let mp  := (m + 9) % 12
  let doy := (153 * mp + 2) / 5 + d - 1
  let doe := yoe * 365 + yoe / 4 - yoe / 100 + doy
  era * 146097 + doe - 719468

end Cleanup

namespace Imap

-- The days of `parse_internal_date`.
def daysFromCivil (year month day : Int) : Int :=
  let (y, m) := if month ≤ 2 then (year - 1, month + 9) else (year, month - 3)
  let era := y / 400
  let yoe := y - era * 400
  let doy := (153 * m + 2) / 5 + day - 1
  let doe := yoe * 365 + yoe / 4 - yoe / 100 + doy
  era * 146097 + doe - 719468

end Imap

theorem imap_eq {y m : Int} (month : 1 ≤ m ∧ m ≤ 12) (d : Int) : Imap.daysFromCivil y m d = daysFromCivil y m d := by
  simp only [Imap.daysFromCivil, daysFromCivil]
  split
  case isTrue h  => rw [Int.emod_eq_of_lt (show 0 ≤ m + 9 by omega) (by omega)]
  case isFalse h => rw [show (m + 9) % 12 = m - 3 by omega]

-- A day counted from a March: the century of the era, the four years and the year in it, and the day.
structure Marched (q p t doy : Int) : Prop where
  century : 0 ≤ q ∧ q ≤ 3
  four    : 0 ≤ p ∧ p ≤ 24
  year    : 0 ≤ t ∧ t ≤ 3
  day     : 0 ≤ doy ∧ (doy ≤ 364 ∨ doy = 365 ∧ t = 3 ∧ (p = 24 → q = 3))

namespace Marched

variable {q p t doy : Int}

theorem short (h : Marched q p t doy) :
    0 ≤ 36524 * q + 1461 * p + 365 * t + doy ∧ 36524 * q + 1461 * p + 365 * t + doy < 146097 := by
  obtain ⟨⟨_, _⟩, ⟨_, _⟩, ⟨_, _⟩, _⟩ := h
  omega

-- The year of an era is found from its day.
theorem yearOfEra (h : Marched q p t doy) :
    let doe := 36524 * q + 1461 * p + 365 * t + doy
    (doe - doe / 1460 + doe / 36524 - doe / 146096) / 365 = 100 * q + 4 * p + t := by
  obtain ⟨_, _, _, _⟩ := h
  dsimp only
  have centuries : (36524 * q + 1461 * p + 365 * t + doy) / 36524 -
      (36524 * q + 1461 * p + 365 * t + doy) / 146096 = q := by
    have short : 0 ≤ 1461 * p + 365 * t + doy ∧
        (1461 * p + 365 * t + doy < 36524 ∨ 1461 * p + 365 * t + doy = 36524 ∧ q = 3) := by omega
    generalize is : 1461 * p + 365 * t + doy = rest at short
    rw [show 36524 * q + 1461 * p + 365 * t + doy = 36524 * q + rest by rw [← is]; ring]
    obtain ⟨_, short | ⟨rfl, rfl⟩⟩ := short
    · rw [show (36524 * q + rest) / 36524 = q by omega, show (36524 * q + rest) / 146096 = 0 by omega, Int.sub_zero]
    · rfl
  have leaps : (36524 * q + 1461 * p + 365 * t + doy) / 1460 = 25 * q + p ∨
      (36524 * q + 1461 * p + 365 * t + doy) / 1460 = 25 * q + p + 1 ∧ 1460 ≤ 24 * q + p + 365 * t + doy := by
    omega
  obtain leaps | ⟨leaps, _⟩ := leaps
  · omega
  · omega

theorem daysOfYears (h : Marched q p t doy) :
    let yoe := 100 * q + 4 * p + t
    yoe * 365 + yoe / 4 - yoe / 100 = 36524 * q + 1461 * p + 365 * t := by
  obtain ⟨_, _, _, _⟩ := h
  dsimp only
  omega

-- The days of an era are those of the years before, and those since the March.
theorem exists_marched (doe : Int) (h : 0 ≤ doe ∧ doe < 146097) :
    ∃ q p t doy, Marched q p t doy ∧ doe = 36524 * q + 1461 * p + 365 * t + doy := by
  have century : ∃ q rest, doe = 36524 * q + rest ∧ 0 ≤ q ∧ q ≤ 3 ∧ 0 ≤ rest ∧ (rest < 36524 ∨ rest = 36524 ∧ q = 3) :=
    ⟨min 3 (doe / 36524), doe - 36524 * min 3 (doe / 36524), by omega, by omega, by omega, by omega, by omega⟩
  obtain ⟨q, rest, rfl, _, _, _, late⟩ := century
  have four : ∃ p rest', rest = 1461 * p + rest' ∧ 0 ≤ p ∧ p ≤ 24 ∧ 0 ≤ rest' ∧ rest' < 1461 :=
    ⟨rest / 1461, rest % 1461, by omega, by omega, by omega, by omega, by omega⟩
  obtain ⟨p, rest', rfl, _, _, _, _⟩ := four
  exact ⟨q, p, min 3 (rest' / 365), rest' - 365 * min 3 (rest' / 365), ⟨⟨by omega, by omega⟩, ⟨by omega, by omega⟩,
    ⟨by omega, by omega⟩, by omega, by omega⟩, by omega⟩

end Marched

-- The month from March on, and the day of it.
def dayOfYear (mp d : Int) : Int :=
  (153 * mp + 2) / 5 + d - 1

-- The year that starts in March, by its century, four years and year.
theorem exists_year (y : Int) : ∃ era q p t, y = 400 * era + (100 * q + 4 * p + t) ∧ (0 ≤ q ∧ q ≤ 3) ∧
    (0 ≤ p ∧ p ≤ 24) ∧ (0 ≤ t ∧ t ≤ 3) :=
  ⟨y / 400, y % 400 / 100, y % 100 / 4, y % 4, by omega, by omega, by omega, by omega⟩

-- A date is a day of a year that starts in March.
theorem CalendarDate.exists_marched (h : CalendarDate y m d) : ∃ era q p t,
    (if m ≤ 2 then y - 1 else y) = 400 * era + (100 * q + 4 * p + t) ∧
    Marched q p t (dayOfYear ((m + 9) % 12) d) ∧ (5 * dayOfYear ((m + 9) % 12) d + 2) / 153 = (m + 9) % 12 := by
  obtain ⟨⟨_, _⟩, _, day⟩ := h
  have ⟨era, q, p, t, eq, hq, hp, ht⟩ := exists_year (if m ≤ 2 then y - 1 else y)
  have month : 0 ≤ dayOfYear ((m + 9) % 12) d ∧ dayOfYear ((m + 9) % 12) d ≤ 365 ∧
      (5 * dayOfYear ((m + 9) % 12) d + 2) / 153 = (m + 9) % 12 := by
    rw [daysInMonth] at day
    rw [dayOfYear]
    split_ifs at day <;> interval_cases m <;> omega
  have last : dayOfYear ((m + 9) % 12) d = 365 → m = 2 ∧ isLeap y := by
    intro last
    rw [daysInMonth] at day
    rw [dayOfYear] at last
    split_ifs at day with feb leap
    · exact ⟨feb, leap⟩
    all_goals interval_cases m <;> omega
  refine ⟨era, q, p, t, eq, ⟨hq, hp, ht, month.left, ?_⟩, month.right.right⟩
  refine (Int.lt_or_eq_of_le month.right.left).imp Int.le_of_lt_add_one fun is => ⟨is, ?_⟩
  obtain ⟨rfl, leap⟩ := last is
  rw [if_pos (by decide)] at eq
  rw [isLeap] at leap
  omega

-- The date of a day of a year that starts in March.
def marchDate (y doy : Int) : Int × Int × Int :=
  let mp := (5 * doy + 2) / 153
  let m  := if mp < 10 then mp + 3 else mp - 9
  (y + (if m ≤ 2 then 1 else 0), m, doy - (153 * mp + 2) / 5 + 1)

theorem daysFromCivil_steps {y' era yoe : Int} (year : (if m ≤ 2 then y - 1 else y) = y') (eras : y' / 400 = era)
    (years : y' - era * 400 = yoe) : daysFromCivil y m d =
      era * 146097 + (yoe * 365 + yoe / 4 - yoe / 100 + dayOfYear ((m + 9) % 12) d) - 719468 := by
  subst year eras years
  rfl

theorem civilFromDays_steps {z era doe yoe doy : Int} (eras : (z + 719468) / 146097 = era)
    (does : z + 719468 - era * 146097 = doe) (years : (doe - doe / 1460 + doe / 36524 - doe / 146096) / 365 = yoe)
    (days : doe - (365 * yoe + yoe / 4 - yoe / 100) = doy) : civilFromDays z = marchDate (yoe + era * 400) doy := by
  subst eras does years days
  rfl

theorem daysFromCivil_eq {era q p t : Int} (year : (if m ≤ 2 then y - 1 else y) = 400 * era + (100 * q + 4 * p + t))
    (h : Marched q p t (dayOfYear ((m + 9) % 12) d)) : daysFromCivil y m d =
      146097 * era + (36524 * q + 1461 * p + 365 * t + dayOfYear ((m + 9) % 12) d) - 719468 := by
  have eras : (400 * era + (100 * q + 4 * p + t)) / 400 = era := by
    obtain ⟨⟨_, _⟩, ⟨_, _⟩, ⟨_, _⟩, _⟩ := h
    omega
  rw [daysFromCivil_steps year eras (by ring : _ = 100 * q + 4 * p + t), h.daysOfYears]
  ring

theorem civilFromDays_eq {q p t doy : Int} (h : Marched q p t doy) (era : Int) :
    civilFromDays (146097 * era + (36524 * q + 1461 * p + 365 * t + doy) - 719468) =
      marchDate (100 * q + 4 * p + t + era * 400) doy := by
  have short := h.short
  refine civilFromDays_steps (by omega) (by ring) h.yearOfEra ?_
  rw [Int.mul_comm 365 (100 * q + 4 * p + t), h.daysOfYears]
  ring

-- A date goes to its day and back.
theorem CalendarDate.goes_back (h : CalendarDate y m d) : civilFromDays (daysFromCivil y m d) = (y, m, d) := by
  have ⟨era, q, p, t, year, marched, month⟩ := h.exists_marched
  obtain ⟨⟨_, _⟩, _⟩ := h
  rw [daysFromCivil_eq year marched, civilFromDays_eq marched, marchDate, month, dayOfYear]
  have back : (if (m + 9) % 12 < 10 then (m + 9) % 12 + 3 else (m + 9) % 12 - 9) = m := by
    split <;> omega
  simp only [back, Prod.mk.injEq, true_and]
  split at year <;> rename_i early <;> simp only [early, if_true, if_false] <;> omega

-- Each day is that of a date.
theorem exists_calendarDate (z : Int) : ∃ y m d, CalendarDate y m d ∧ daysFromCivil y m d = z := by
  have ⟨q, p, t, doy, h, does⟩ := Marched.exists_marched ((z + 719468) % 146097) (by omega)
  have ⟨era, is⟩ : ∃ era, z + 719468 = 146097 * era + (36524 * q + 1461 * p + 365 * t + doy) :=
    ⟨(z + 719468) / 146097, by omega⟩
  have ⟨⟨q0, q3⟩, ⟨p0, p24⟩, ⟨t0, t3⟩, doy0, late⟩ := h
  -- The month from March on, and its day.
  have ⟨mp, month, mp0, mp11, d, days, d1⟩ : ∃ mp, (5 * doy + 2) / 153 = mp ∧ 0 ≤ mp ∧ mp ≤ 11 ∧
      ∃ d, doy = dayOfYear mp d ∧ 1 ≤ d := by
    refine ⟨_, rfl, by omega, by omega, doy - (153 * ((5 * doy + 2) / 153) + 2) / 5 + 1, ?_, by omega⟩
    rw [dayOfYear]
    ring
  -- The month, and the year that it is in.
  have ⟨m, m1, m12, march⟩ : ∃ m, 1 ≤ m ∧ m ≤ 12 ∧ (m + 9) % 12 = mp :=
    ⟨(mp + 2) % 12 + 1, by omega, by omega, by omega⟩
  have ⟨y, year⟩ : ∃ y, (if m ≤ 2 then y - 1 else y) = 400 * era + (100 * q + 4 * p + t) := by
    by_cases early : m ≤ 2
    case pos => exact ⟨400 * era + (100 * q + 4 * p + t) + 1, by rw [if_pos early]; ring⟩
    case neg => exact ⟨400 * era + (100 * q + 4 * p + t), if_neg early⟩
  subst march days
  refine ⟨y, m, d, ⟨⟨m1, m12⟩, d1, ?_⟩, ?_⟩
  · have leap : dayOfYear ((m + 9) % 12) d = 365 → m = 2 → isLeap y := by
      rintro last rfl
      rw [if_pos (by decide)] at year
      rw [isLeap]
      omega
    rw [daysInMonth]
    rw [dayOfYear] at month late leap
    split_ifs with feb four
    · omega
    · have := mt (fun last => leap last feb) four
      omega
    · omega
    · interval_cases m <;> omega
  · rw [daysFromCivil_eq year h, ← is]
    ring

-- A day goes to its date and back.
theorem civilFromDays_calendarDate (z : Int) :
    let (y, m, d) := civilFromDays z
    CalendarDate y m d ∧ daysFromCivil y m d = z := by
  obtain ⟨y, m, d, real, rfl⟩ := exists_calendarDate z
  rw [real.goes_back]
  exact ⟨real, rfl⟩

end Kaluta.Dates

namespace Kaluta.Dates

variable {value : String} {y m d : Int} {at_ : Millis}

-- A text of three numbers, which need not be a date's.
def Names (value : String) (y m d : Int) : Prop :=
  ∃ year month day, value.toList.splitOnP (fun c => c = '-' || c = '/') = [year, month, day] ∧
    parseI64 year = some y ∧ parseI64 month = some m ∧ parseI64 day = some d

-- The years that the search parser takes.
def Admitted (y : Int) : Prop :=
  1970 ≤ y ∧ y ≤ 9999

-- A text is taken just where it names a date of the calendar, as the day that goes back to the date.
def Exact (value : String) : Prop :=
  ∀ at_, parseDate value = .ok at_ ↔ ∃ y m d, Names value y m d ∧ Admitted y ∧ CalendarDate y m d ∧
    ∃ days, at_ = days * 86400000 ∧ civilFromDays days = (y, m, d)

theorem Names.unique (h : Names value y m d) (h' : Names value y' m' d') : y = y' ∧ m = m' ∧ d = d' := by
  obtain ⟨_, _, _, parts, hy, hm, hd⟩ := h
  obtain ⟨_, _, _, parts', hy', hm', hd'⟩ := h'
  cases parts.symm.trans parts'
  exact ⟨Option.some.inj (hy.symm.trans hy'), Option.some.inj (hm.symm.trans hm'), Option.some.inj (hd.symm.trans hd')⟩

theorem parseDate_eq_ok : parseDate value = .ok at_ ↔ ∃ y m d, Names value y m d ∧ Admitted y ∧
    (1 ≤ m ∧ m ≤ 12) ∧ (1 ≤ d ∧ d ≤ 31) ∧ daysFromCivil y m d * 86400000 = at_ := by
  constructor
  · intro h
    rw [parseDate.eq_def] at h
    split at h
    case h_2             => cases h
    case h_1 y m d parts =>
      split at h
      case h_2 => cases h
      case h_1 y hy =>
      split at h
      case h_2 => cases h
      case h_1 m hm =>
      split at h
      case h_2 => cases h
      case h_1 d hd =>
      split at h
      case isFalse      => cases h
      case isTrue range =>
        cases h
        have ⟨y1, y2, m1, m2, d1, d2⟩ := range
        exact ⟨y, m, d, ⟨_, _, _, parts, hy, hm, hd⟩, ⟨y1, y2⟩, ⟨m1, m2⟩, ⟨d1, d2⟩, rfl⟩
  · rintro ⟨y, m, d, ⟨year, month, day, parts, hy, hm, hd⟩, ⟨y1, y2⟩, ⟨m1, m2⟩, ⟨d1, d2⟩, rfl⟩
    rw [parseDate.eq_def, parts]
    simp only [hy, hm, hd]
    exact if_pos ⟨y1, y2, m1, m2, d1, d2⟩

theorem daysInMonth_le (y m : Int) : daysInMonth y m ≤ 31 := by
  rw [daysInMonth]
  split_ifs <;> decide

-- The days of a date are those that go back to it.
theorem CalendarDate.days_iff (h : CalendarDate y m d) {days : Int} :
    civilFromDays days = (y, m, d) ↔ daysFromCivil y m d = days := by
  constructor
  · intro is
    have := civilFromDays_calendarDate days
    rw [is] at this
    exact this.right
  · rintro rfl
    exact h.goes_back

-- A text whose day is beyond its month's end is taken for one of the next month.
theorem exact_iff (value : String) : Exact value ↔
    ¬∃ y m d, Names value y m d ∧ Admitted y ∧ (1 ≤ m ∧ m ≤ 12) ∧ daysInMonth y m < d ∧ d ≤ 31 := by
  constructor
  · rintro exact ⟨y, m, d, names, admitted, month, beyond, le⟩
    have pos : 1 ≤ d := by
      have : 28 ≤ daysInMonth y m := by
        rw [daysInMonth]
        split_ifs <;> decide
      omega
    have taken := parseDate_eq_ok.mpr ⟨y, m, d, names, admitted, month, ⟨pos, le⟩, rfl⟩
    obtain ⟨y', m', d', names', _, real, _⟩ := (exact _).mp taken
    obtain ⟨rfl, rfl, rfl⟩ := names.unique names'
    exact absurd real.day.right (Int.not_le.mpr beyond)
  · intro none at_
    rw [parseDate_eq_ok]
    constructor
    · rintro ⟨y, m, d, names, admitted, month, day, rfl⟩
      have real : CalendarDate y m d := by
        refine ⟨month, day.left, Int.not_lt.mp fun beyond => none ?_⟩
        exact ⟨y, m, d, names, admitted, month, beyond, day.right⟩
      exact ⟨y, m, d, names, admitted, real, _, rfl, real.goes_back⟩
    · rintro ⟨y, m, d, names, admitted, real, days, rfl, is⟩
      have ⟨first, last⟩ := real.day
      refine ⟨y, m, d, names, admitted, real.month, ⟨first, last.trans (daysInMonth_le y m)⟩, ?_⟩
      rw [real.days_iff.mp is]

-- The copies are inverse to what goes back, for all dates and days. What the search parser takes is a date but for the
-- days beyond a month's end.
theorem dates_inverse_and_exact_iff (y m d z : Int) (value : String) :
    (CalendarDate y m d → civilFromDays (daysFromCivil y m d) = (y, m, d) ∧
      civilFromDays (Cleanup.daysFromCivil y m d) = (y, m, d) ∧ civilFromDays (Imap.daysFromCivil y m d) = (y, m, d)) ∧
    (
      let (y, m, d) := civilFromDays z
      CalendarDate y m d ∧ daysFromCivil y m d = z ∧ Cleanup.daysFromCivil y m d = z ∧ Imap.daysFromCivil y m d = z) ∧
    (Exact value ↔
      ¬∃ y m d, Names value y m d ∧ Admitted y ∧ (1 ≤ m ∧ m ≤ 12) ∧ daysInMonth y m < d ∧ d ≤ 31) := by
  refine ⟨fun real => ?_, ?_, exact_iff value⟩
  · have back := real.goes_back
    exact ⟨back, back, by rw [imap_eq real.month, back]⟩
  · have back := civilFromDays_calendarDate z
    generalize civilFromDays z = date at back
    obtain ⟨y, m, d⟩ := date
    have ⟨real, days⟩ := back
    exact ⟨real, days, days, by rw [imap_eq real.month, days]⟩

theorem february_thirtyFirst : ¬Exact "2026-02-31" := by
  rw [exact_iff, not_not]
  exact ⟨2026, 2, 31, ⟨"2026".toList, "02".toList, "31".toList, by decide, by decide, by decide, by decide⟩,
    ⟨by decide, by decide⟩, by decide, by decide, by decide⟩

end Kaluta.Dates
