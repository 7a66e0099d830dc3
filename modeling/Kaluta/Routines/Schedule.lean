import Kaluta.Guide.Entry
import Kaluta.Search.Printed
import Kaluta.Lib.Cron

-- Routine schedules (the rules of a calendar, in local time), what they mean in words, and the UTC cron of routines
-- in the cloud.
namespace Kaluta.Routines

inductive Frequency
  | yearly
  | monthly
  | weekly
  | daily
  | hourly
  | minutely
  | secondly
  deriving DecidableEq

-- What the rrule library reads in a rule: days are counted from Monday.
structure RRule where
  freq       : Frequency
  interval   : Nat
  byWeekday  : List Nat
  byHour     : List Nat
  byMinute   : List Nat
  positive   : 0 < interval
  minutes    : ∀ {m}, m ∈ byMinute → m < 60
  hours      : ∀ {h}, h ∈ byHour → h < 24
  deriving DecidableEq

namespace RRule

variable (r : RRule)

def Day (d : Nat) : Prop :=
  r.byWeekday = [] ∨ d ∈ r.byWeekday

def Hour (h : Nat) : Prop :=
  r.byHour = [] ∨ h ∈ r.byHour

-- A part that is left out takes its value from the anchor, midnight on a Monday.
def times (list : List Nat) : List Nat :=
  if list = [] then [0] else list

-- The days of a daily or weekly rule, counted from the anchor.
def OnDay (day : Nat) : Prop :=
  match r.freq with
  | .weekly => r.interval ∣ day / 7 ∧ day % 7 ∈ times r.byWeekday
  | _       => r.interval ∣ day ∧ r.Day (day % 7)

instance (day : Nat) : Decidable (r.OnDay day) :=
  decidable_of_iff
    (if r.freq = .weekly then r.interval ∣ day / 7 ∧ day % 7 ∈ times r.byWeekday
      else r.interval ∣ day ∧ (r.byWeekday = [] ∨ day % 7 ∈ r.byWeekday))
    (by cases h : r.freq <;> simp [OnDay, Day, h])

-- The occurrences in local time, in minutes from the anchor. Those of rarer and of more frequent rules are `others`.
def Occurs (others : RRule → Nat → Prop) (n : Nat) : Prop :=
  match r.freq with
  | .hourly          =>
    r.interval ∣ n / 60 ∧ r.Day (n / 1440 % 7) ∧ r.Hour (n / 60 % 24) ∧ n % 60 ∈ times r.byMinute
  | .daily | .weekly =>
    r.OnDay (n / 1440) ∧ n / 60 % 24 ∈ times r.byHour ∧ n % 60 ∈ times r.byMinute
  | _                => others r n

end RRule

-- Minutes from the beginning of 1970 to 2026-01-05, a Monday.
def anchor : Int :=
  20458 * 1440

-- `trim_start_matches`
def bareRule : List Char → List Char
  | 'R' :: 'R' :: 'U' :: 'L' :: 'E' :: ':' :: cs => bareRule cs
  | cs                                           => cs

def bare (rule : String) : String :=
  .ofList (bareRule (Guide.trim rule).toList)

section

variable (library : String → Except String RRule)

def set (rule : String) : Except String RRule :=
  library (bare rule)

def validate (rule : String) : Except String Unit :=
  (fun _ => ()) <$> set library rule

end

structure Parts where
  freq     : String := ""
  minute   : Option Nat := none
  hour     : Option Nat := none
  days     : List String := []
  interval : Nat := 1
  deriving DecidableEq

def parseU32 (cs : List Char) : Option Nat :=
  parseUnsigned (2 ^ 32) cs

def firstNumber (v : List Char) : Option Nat :=
  ((v.splitOn ',').head?).bind parseU32

def Parts.item (p : Parts) (kv : List Char) : Parts :=
  match splitOnce '=' kv with
  | none        => p
  | some (k, v) =>
    match String.ofList k with
    | "FREQ"     => { p with freq := .ofList v }
    | "BYMINUTE" => { p with minute := firstNumber v }
    | "BYHOUR"   => { p with hour := firstNumber v }
    | "BYDAY"    => { p with days := (v.splitOn ',').map .ofList }
    | "INTERVAL" => { p with interval := (parseU32 v).getD 1 }
    | _          => p

def parts (rule : String) : Parts :=
  ((bare rule).toList.splitOn ';').foldl Parts.item {}

def DAYS : List (String × String) :=
  [("MO", "Monday"), ("TU", "Tuesday"), ("WE", "Wednesday"), ("TH", "Thursday"), ("FR", "Friday"), ("SA", "Saturday"),
    ("SU", "Sunday")]

-- `{:02}`
def twoDigits (n : Nat) : String :=
  if n < 10 then "0" ++ toString n else toString n

def time (hour minute : Nat) : String :=
  toString hour ++ ":" ++ twoDigits minute

-- "Every hour at :44", "Weekdays at 8:30", … (local time).
def describe (rule : String) : String :=
  let p        := parts rule
  let minute   := p.minute.getD 0
  let clock    := time (p.hour.getD 0) minute
  let days     := p.days.filterMap fun d => (DAYS.find? (·.1 = d)).map Prod.snd
  let weekdays := p.days.length = 5 ∧ ∀ d ∈ ["MO", "TU", "WE", "TH", "FR"], d ∈ p.days
  match p.freq with
  | "HOURLY" =>
    if 1 < p.interval then
      "Every " ++ toString p.interval ++ " hours at :" ++ twoDigits minute
    else
      "Every hour at :" ++ twoDigits minute
  | "DAILY"  =>
    if weekdays then "Weekdays at " ++ clock
    else if days ≠ [] then ", ".intercalate days ++ " at " ++ clock
    else "Every day at " ++ clock
  | "WEEKLY" =>
    if weekdays then "Weekdays at " ++ clock
    else if days ≠ [] then "Every " ++ ", ".intercalate days ++ " at " ++ clock
    else "Every Monday at " ++ clock
  | _        => rule

-- The UTC cron of a rule where local time is ahead by the offset. Hours and minutes that the library reads are far
-- from the bounds of 32 bits.
def toUtcCron (library : String → Except String RRule) (offsetMinutes : Int) (rule : String) :
    Except String String := do
  validate library rule
  let p := parts rule
  let minute : Int := p.minute.getD 0
  match p.freq with
  | "HOURLY" =>
    let m     := (minute - offsetMinutes) % 60
    let hours := if 1 < p.interval then "*/" ++ toString p.interval else "*"
    return toString m.toNat ++ " " ++ hours ++ " * * *"
  | "DAILY" | "WEEKLY" =>
    let utc      := (p.hour.getD 0 : Int) * 60 + minute - offsetMinutes
    let dayShift := utc / 1440
    let utc      := utc % 1440
    let h        := utc / 60
    let m        := utc % 60
    let days     := p.days.filterMap fun d => DAYS.findIdx? (·.1 = d)
    -- Cron begins the week on Sunday.
    let days     := (days.map fun (i : Nat) => (((i : Int) + 1 + dayShift) % 7).toNat).mergeSort
    let dow      :=
      if days = [] then
        if p.freq = "WEEKLY" then toString ((1 + dayShift) % 7).toNat else "*"
      else
        ",".intercalate (days.map toString)
    return toString m.toNat ++ " " ++ toString h.toNat ++ " * * " ++ dow
  | other => throw (other ++ " schedules cannot run on Claude cloud (hourly minimum)")

example : describe "FREQ=WEEKLY;BYDAY=MO,TU,WE,TH,FR;BYHOUR=8;BYMINUTE=30" = "Weekdays at 8:30" := by decide +kernel

end Kaluta.Routines

-- What describe writes, and that it can be read back.
namespace Kaluta.Routines

open Cron (number)

section Days

variable {d : String} {i : Nat} {is : List Nat} {days : List String}

def dayIndex (d : String) : Option Nat :=
  DAYS.findIdx? (·.1 = d)

def dayName (i : Nat) : String :=
  ((DAYS[i]?).map Prod.snd).getD ""

theorem dayIndex_lt (h : dayIndex d = some i) : i < 7 :=
  (List.findIdx?_eq_some_iff_getElem.mp h).1

theorem find?_eq_dayName : (DAYS.find? (·.1 = d)).map Prod.snd = (dayIndex d).map dayName := by
  rw [List.find?_eq_bind_findIdx?_getElem?]
  cases h : dayIndex d
  all_goals rw [show DAYS.findIdx? (·.1 = d) = _ from h]
  case none   => rfl
  case some i =>
    have := dayIndex_lt h
    simp [dayName, List.getElem?_eq_getElem (show i < DAYS.length from this)]

def WEEKDAYS : List String :=
  ["MO", "TU", "WE", "TH", "FR"]

theorem mem_weekdays (five : days.length = 5) (all : ∀ d ∈ WEEKDAYS, d ∈ days) :
    i ∈ days.filterMap dayIndex ↔ i < 5 := by
  have perm : WEEKDAYS.Perm days := (List.subperm_of_subset (by decide) all).perm_of_length_le (five ▸ Nat.le_refl 5)
  rw [← (perm.filterMap dayIndex).mem_iff, show WEEKDAYS.filterMap dayIndex = List.range 5 by decide, List.mem_range]

end Days

section Words

inductive Days
  | every
  | weekdays
  | only (each : Bool) (days : List Nat) -- "Every Monday, Friday", or without the first word.

-- What describe writes: a schedule of hours, or one of days at a time.
inductive Words
  | hours (interval minute : Nat)
  | clock (days : Days) (hour minute : Nat)

def Days.Has : Days → Nat → Prop
  | every    , _ => True
  | weekdays , d => d < 5
  | only _ ds, d => d ∈ ds

instance : (days : Days) → (d : Nat) → Decidable (days.Has d)
  | .every    , _ => inferInstanceAs (Decidable True)
  | .weekdays , d => inferInstanceAs (Decidable (d < 5))
  | .only _ ds, d => inferInstanceAs (Decidable (d ∈ ds))

-- The minutes of local time that are meant, counted from the anchor.
def Words.Means : Words → Nat → Prop
  | hours k m     , n => k ∣ n / 60 ∧ n % 60 = m
  | clock days h m, n => days.Has (n / 1440 % 7) ∧ n / 60 % 24 = h ∧ n % 60 = m

def dayTokens : List Nat → List String
  | []      => []
  | [d]     => [dayName d]
  | d :: ds => (dayName d ++ ",") :: dayTokens ds

def Days.tokens : Days → List String
  | every         => ["Every", "day"]
  | weekdays      => ["Weekdays"]
  | only true ds  => "Every" :: dayTokens ds
  | only false ds => dayTokens ds

def Words.tokens : Words → List String
  | hours k m      =>
    (if 1 < k then ["Every", toString k, "hours"] else ["Every", "hour"]) ++ ["at", ":" ++ twoDigits m]
  | clock days h m => days.tokens ++ ["at", time h m]

def Words.text (w : Words) : String :=
  " ".intercalate w.tokens

def readTime (s : String) : Option (Nat × Nat) :=
  match s.toList.splitOn ':' with
  | [h, m] => (number h).bind fun h => (number m).map fun m => (h, m)
  | _      => none

def readMinute (s : String) : Option Nat :=
  match s.toList with
  | ':' :: m => number m
  | _        => none

-- The day of a name, which a comma may follow.
def dayNamed (s : String) : Option Nat :=
  DAYS.findIdx? fun d => d.2 = s ∨ d.2 ++ "," = s

def readDays (tokens : List String) : Option (List Nat) :=
  tokens.mapM dayNamed

def readPhrase (front : List String) (last : String) : Option Words :=
  match front with
  | ["Every", "day"]      => (readTime last).map fun (h, m) => .clock .every h m
  | ["Weekdays"]          => (readTime last).map fun (h, m) => .clock .weekdays h m
  | ["Every", "hour"]     => (readMinute last).map (.hours 1)
  | ["Every", k, "hours"] => (number k.toList).bind fun k => (readMinute last).map (.hours k)
  | _                     => none

def readFront (front : List String) (last : String) : Option Words :=
  match readDays front, readDays front.tail with
  | some ds, _              => (readTime last).map fun (h, m) => .clock (.only false ds) h m
  | none   , some (d :: ds) => (readTime last).map fun (h, m) => .clock (.only true (d :: ds)) h m
  | none   , _              => readPhrase front last

def Words.read (text : String) : Option Words :=
  match ((text.toList.splitOn ' ').map String.ofList).reverse with
  | last :: "at" :: front => readFront front.reverse last
  | _                     => none

inductive Words.Proper : Words → Prop
  | hours {k m} : 0 < k → Proper (hours k m)
  | every {h m} : Proper (clock .every h m)
  | weekdays {h m} : Proper (clock .weekdays h m)
  | only {each ds h m} : ds ≠ [] → (∀ d ∈ ds, d < 7) → Proper (clock (.only each ds) h m)

variable {w : Words} {c : Char} {ds : List Nat} {h m n : Nat}

theorem toList_twoDigits :
    (twoDigits m).toList = (toString m).toList ∨ (twoDigits m).toList = '0' :: (toString m).toList := by
  rw [twoDigits]
  split
  · exact .inr (String.toList_append)
  · exact .inl rfl

theorem number_twoDigits (m : Nat) : number (twoDigits m).toList = some m := by
  rcases toList_twoDigits (m := m) with eq | eq
  · rw [eq, Cron.number_toString]
  · have digits : ∀ c ∈ '0' :: (toString m).toList, c.isDigit = true := by
      intro c hc
      rcases List.mem_cons.mp hc with rfl | hc
      · rfl
      · exact Cron.isDigit_of_mem hc
    rw [eq, number, if_pos ⟨List.cons_ne_nil _ _, List.all_eq_true.mpr digits⟩, Cron.digits_toString]
    exact congrArg some (Nat.ofDigitChars_ten_toDigits (n := m))

theorem isDigit_twoDigits (hc : c ∈ (twoDigits m).toList) : c.isDigit = true := by
  rcases toList_twoDigits (m := m) with eq | eq
  · exact Cron.isDigit_of_mem (eq ▸ hc)
  · rcases List.mem_cons.mp (eq ▸ hc) with rfl | hc
    · rfl
    · exact Cron.isDigit_of_mem hc

theorem toList_time : (time h m).toList = (toString h).toList ++ ':' :: (twoDigits m).toList := by
  rw [time, String.toList_append, String.toList_append, List.append_assoc]
  rfl

theorem readTime_time : readTime (time h m) = some (h, m) := by
  have colon {cs : List Char} (digits : ∀ c ∈ cs, c.isDigit = true) : ':' ∉ cs :=
    fun hc => absurd (digits _ hc) (by decide)
  rw [readTime, toList_time, List.splitOn_append_cons_self_of_not_mem (colon fun _ => Cron.isDigit_of_mem),
    List.splitOn_eq_singleton (colon fun _ => isDigit_twoDigits)]
  simp only [Cron.number_toString, number_twoDigits]
  rfl

theorem readMinute_twoDigits : readMinute (":" ++ twoDigits m) = some m := by
  rw [readMinute, String.toList_append]
  exact number_twoDigits m

theorem dayNamed_dayName (hd : n < 7) : dayNamed (dayName n) = some n ∧ dayNamed (dayName n ++ ",") = some n := by
  revert n
  decide +kernel

theorem readDays_dayTokens (hds : ∀ d ∈ ds, d < 7) : readDays (dayTokens ds) = some ds := by
  induction ds using dayTokens.induct
  case case1 => rfl
  case case2 d =>
    rw [dayTokens, readDays, List.mapM_cons, (dayNamed_dayName (hds d List.mem_cons_self)).1]
    rfl
  case case3 d ds ne ih =>
    rw [dayTokens, readDays, List.mapM_cons, (dayNamed_dayName (hds d List.mem_cons_self)).2]
    · rw [← readDays, ih fun e he => hds e (List.mem_cons_of_mem _ he)]
      rfl
    · exact ne

-- A word of the text: it has no blank, and nothing that a rule is written with.
def Plain (s : String) : Prop :=
  ' ' ∉ s.toList ∧ '=' ∉ s.toList

instance : DecidablePred Plain :=
  fun s => inferInstanceAs (Decidable (' ' ∉ s.toList ∧ '=' ∉ s.toList))

theorem Plain.append {s t : String} (hs : Plain s) (ht : Plain t) : Plain (s ++ t) := by
  rw [Plain, String.toList_append, List.mem_append, List.mem_append]
  exact ⟨fun h => h.elim hs.1 ht.1, fun h => h.elim hs.2 ht.2⟩

theorem plain_of_digits {s : String} (digits : ∀ c ∈ s.toList, c.isDigit = true) : Plain s :=
  ⟨fun h => absurd (digits _ h) (by decide), fun h => absurd (digits _ h) (by decide)⟩

theorem plain_number (n : Nat) : Plain (toString n) :=
  plain_of_digits fun _ => Cron.isDigit_of_mem

theorem plain_twoDigits (n : Nat) : Plain (twoDigits n) :=
  plain_of_digits fun _ => isDigit_twoDigits

theorem plain_dayName (n : Nat) : Plain (dayName n) := by
  have names : ∀ n < 7, Plain (dayName n) := by decide +kernel
  by_cases hn : n < 7
  case pos => exact names n hn
  case neg =>
    have empty : dayName n = "" := by rw [dayName, List.getElem?_eq_none (Nat.not_lt.mp hn)]; rfl
    exact empty ▸ by decide

theorem plain_dayTokens : ∀ t ∈ dayTokens ds, Plain t := by
  induction ds using dayTokens.induct
  case case1       => exact fun t ht => absurd ht List.not_mem_nil
  case case2 d     => exact fun t ht => List.mem_singleton.mp ht ▸ plain_dayName d
  case case3 d ds ne ih =>
    rw [dayTokens]
    · intro t ht
      rcases List.mem_cons.mp ht with rfl | ht
      · exact (plain_dayName d).append (by decide)
      · exact ih t ht
    · exact ne

theorem Words.plain {t : String} (w : Words) (ht : t ∈ w.tokens) : Plain t := by
  cases w
  case hours k m =>
    rw [tokens, List.mem_append] at ht
    rcases ht with ht | ht
    · split at ht
      · rcases List.mem_cons.mp ht with rfl | ht
        · decide
        · rcases List.mem_cons.mp ht with rfl | ht
          · exact plain_number k
          · exact List.mem_singleton.mp ht ▸ by decide
      · exact (by decide : ∀ t ∈ ["Every", "hour"], Plain t) t ht
    · rcases List.mem_cons.mp ht with rfl | ht
      · decide
      · exact List.mem_singleton.mp ht ▸ Plain.append (by decide) (plain_twoDigits m)
  case clock days h m =>
    rw [tokens, List.mem_append] at ht
    rcases ht with ht | ht
    · match days with
      | .every         => exact (by decide : ∀ t ∈ ["Every", "day"], Plain t) t ht
      | .weekdays      => exact (by decide : ∀ t ∈ ["Weekdays"], Plain t) t ht
      | .only false ds => exact plain_dayTokens t ht
      | .only true ds  =>
        rcases List.mem_cons.mp ht with rfl | ht
        · decide
        · exact plain_dayTokens t ht
    · rcases List.mem_cons.mp ht with rfl | ht
      · decide
      · exact List.mem_singleton.mp ht ▸ ((plain_number h).append (by decide)).append (plain_twoDigits m)

theorem Words.tokens_text (w : Words) : (w.text.toList.splitOn ' ').map String.ofList = w.tokens := by
  have blank : ∀ l ∈ w.tokens.map String.toList, ' ' ∉ l := by
    intro l hl
    obtain ⟨t, ht, rfl⟩ := List.mem_map.mp hl
    exact (w.plain ht).1
  have ne : w.tokens.map String.toList ≠ [] := by
    cases w <;> simp [tokens]
  rw [text, String.toList_intercalate, show (" " : String).toList = [' '] from rfl,
    List.splitOn_intercalate ' ' blank ne, List.map_map]
  exact (List.map_congr_left fun t _ => String.ofList_toList).trans (List.map_id _)

theorem Words.equals_not_mem (w : Words) : '=' ∉ w.text.toList := by
  have mem {ls : List (List Char)} {c : Char} (hc : c ∈ [' '].intercalate ls) : c = ' ' ∨ ∃ l ∈ ls, c ∈ l := by
    induction ls
    case nil          => exact absurd hc List.not_mem_nil
    case cons l ls ih =>
      cases ls
      case nil       =>
        rw [List.intercalate_singleton] at hc
        exact .inr ⟨l, List.mem_singleton.mpr rfl, hc⟩
      case cons k ls =>
        rw [List.intercalate_cons_cons, List.mem_append, List.mem_append] at hc
        rcases hc with (hc | hc) | hc
        · exact .inr ⟨l, List.mem_cons_self, hc⟩
        · exact .inl (List.mem_singleton.mp hc)
        · exact (ih hc).imp_right fun ⟨k, hk, hc⟩ => ⟨k, List.mem_cons_of_mem _ hk, hc⟩
  rw [text, String.toList_intercalate]
  intro h
  rcases mem h with h | ⟨l, hl, h⟩
  · exact absurd h (by decide)
  · obtain ⟨t, ht, rfl⟩ := List.mem_map.mp hl
    exact (w.plain ht).2 h

-- A schedule can be read back from its words.
theorem Words.read_text (hw : w.Proper) : Words.read w.text = some w := by
  have front (front : List String) (last : String) (eq : w.tokens = front ++ ["at", last]) :
      Words.read w.text = readFront front last := by
    rw [Words.read, Words.tokens_text, eq, List.reverse_append]
    exact congrArg (readFront · last) (List.reverse_reverse front)
  have notDays {t : String} (h : dayNamed t = none) (rest : List String) : readDays (t :: rest) = none := by
    rw [readDays, List.mapM_cons, h]
    rfl
  have every (rest : List String) : readDays ("Every" :: rest) = none := notDays (by decide +kernel) rest
  cases hw
  case hours k m hk =>
    by_cases one : 1 < k
    · have last : readDays [toString k, "hours"] = none := by
        have hours : readDays ["hours"] = none := notDays (by decide +kernel) []
        rw [readDays, List.mapM_cons, ← readDays, hours]
        cases dayNamed (toString k) <;> rfl
      rw [front ["Every", toString k, "hours"] _ (by rw [tokens, if_pos one]), readFront, every, List.tail_cons, last]
      show readPhrase _ _ = _
      rw [readPhrase, Cron.number_toString, readMinute_twoDigits]
      rfl
    · obtain rfl : k = 1 := by omega
      rw [front ["Every", "hour"] _ rfl, readFront, every, List.tail_cons, notDays (by decide +kernel)]
      show (readMinute _).map _ = _
      rw [readMinute_twoDigits]
      rfl
  case every h m =>
    rw [front ["Every", "day"] _ rfl, readFront, every, List.tail_cons, notDays (by decide +kernel)]
    show (readTime _).map _ = _
    rw [readTime_time]
    rfl
  case weekdays h m =>
    rw [front ["Weekdays"] _ rfl, readFront, notDays (by decide +kernel)]
    show (readTime _).map _ = _
    rw [readTime_time]
    rfl
  case only each ds h m ne days =>
    cases each
    · rw [front (dayTokens ds) _ rfl, readFront, readDays_dayTokens days]
      show (readTime _).map _ = _
      rw [readTime_time]
      rfl
    · rw [front ("Every" :: dayTokens ds) _ rfl, readFront, every, List.tail_cons, readDays_dayTokens days]
      obtain ⟨d, ds, rfl⟩ := List.exists_cons_of_ne_nil ne
      show (readTime _).map _ = _
      rw [readTime_time]
      rfl

theorem Words.text_hours (k m : Nat) :
    (hours k m).text =
      if 1 < k then "Every " ++ toString k ++ " hours at :" ++ twoDigits m else "Every hour at :" ++ twoDigits m := by
  rw [text, tokens]
  split
  · show " ".intercalate ["Every", toString k, "hours", "at", ":" ++ twoDigits m] = _
    rw [← String.toList_inj]
    simp only [String.intercalate_cons_cons, String.intercalate_singleton, String.toList_append, List.append_assoc]
    rfl
  · show " ".intercalate ["Every", "hour", "at", ":" ++ twoDigits m] = _
    rw [← String.toList_inj]
    simp only [String.intercalate_cons_cons, String.intercalate_singleton, String.toList_append, List.append_assoc]
    rfl

theorem intercalate_dayTokens (ds : List Nat) : " ".intercalate (dayTokens ds) = ", ".intercalate (ds.map dayName) := by
  induction ds using dayTokens.induct
  case case1          => rfl
  case case2 d        => rw [dayTokens, List.map_singleton, String.intercalate_singleton, String.intercalate_singleton]
  case case3 d ds ne ih =>
    obtain ⟨e, ds, rfl⟩ : ∃ e l, ds = e :: l := List.exists_cons_of_ne_nil ne
    have tail : dayTokens (e :: ds) ≠ [] := by cases ds <;> exact List.cons_ne_nil _ _
    rw [dayTokens, String.intercalate_cons_of_ne_nil tail, ih, List.map_cons (a := d), List.map_cons,
      String.intercalate_cons_cons, ← List.map_cons, ← String.toList_inj]
    · simp only [String.toList_append, List.append_assoc]
      rfl
    · exact ne

theorem Words.text_clock {days : Days} (ne : days.tokens ≠ []) (h m : Nat) :
    (clock days h m).text = " ".intercalate days.tokens ++ " at " ++ time h m := by
  rw [text, tokens, String.intercalate_append_of_ne_nil ne (List.cons_ne_nil _ _), String.intercalate_cons_cons,
    String.intercalate_singleton, ← String.toList_inj]
  simp only [String.toList_append, List.append_assoc]
  rfl

end Words

section Parts

variable (p : Parts)

def Parts.dayList : List Nat :=
  p.days.filterMap dayIndex

def Parts.Weekdays : Prop :=
  p.days.length = 5 ∧ ∀ d ∈ WEEKDAYS, d ∈ p.days

instance : Decidable p.Weekdays :=
  inferInstanceAs (Decidable (_ ∧ _))

def Parts.named (each : Bool) (otherwise : Days) : Days :=
  if p.Weekdays then .weekdays else if p.dayList = [] then otherwise else .only each p.dayList

-- What describe says of a rule; nothing where it falls back to the rule's text.
def Parts.words : Option Words :=
  match p.freq with
  | "HOURLY" => some (.hours (max 1 p.interval) (p.minute.getD 0))
  | "DAILY"  => some (.clock (p.named false .every) (p.hour.getD 0) (p.minute.getD 0))
  | "WEEKLY" => some (.clock (p.named true (.only true [0])) (p.hour.getD 0) (p.minute.getD 0))
  | _        => none

variable {p} {otherwise : Days}

theorem tokens_ne_nil (each : Bool) (ne : otherwise.tokens ≠ []) : (p.named each otherwise).tokens ≠ [] := by
  rw [Parts.named]
  split
  · exact List.cons_ne_nil _ _
  · split
    · exact ne
    case isFalse days =>
      obtain ⟨d, ds, eq⟩ := List.exists_cons_of_ne_nil days
      rw [eq]
      cases each <;> cases ds <;> exact List.cons_ne_nil _ _

theorem text_named (each : Bool) (otherwise : Days) (ne : otherwise.tokens ≠ []) (h m : Nat) :
    (Words.clock (p.named each otherwise) h m).text =
      if p.Weekdays then "Weekdays at " ++ time h m
      else if p.dayList ≠ [] then
        (if each then "Every " else "") ++ ", ".intercalate (p.dayList.map dayName) ++ " at " ++ time h m
      else " ".intercalate otherwise.tokens ++ " at " ++ time h m := by
  rw [Words.text_clock (tokens_ne_nil each ne), Parts.named]
  split
  · rfl
  · split
    case isTrue none   => rw [if_neg (not_not.mpr none)]
    case isFalse some =>
      obtain ⟨d, ds, eq⟩ := List.exists_cons_of_ne_nil some
      have tokens : dayTokens p.dayList ≠ [] := by rw [eq]; cases ds <;> exact List.cons_ne_nil _ _
      rw [← intercalate_dayTokens]
      cases each
      · rw [if_neg Bool.false_ne_true, String.empty_append]
        rfl
      · show " ".intercalate ("Every" :: dayTokens p.dayList) ++ _ ++ _ = _
        rw [String.intercalate_cons_of_ne_nil tokens]
        rfl

theorem words_none (hourly : p.freq ≠ "HOURLY") (daily : p.freq ≠ "DAILY") (weekly : p.freq ≠ "WEEKLY") :
    p.words = none := by
  rw [Parts.words]
  split
  case h_1 h => exact absurd h hourly
  case h_2 h => exact absurd h daily
  case h_3 h => exact absurd h weekly
  case h_4 => rfl

theorem describe_eq (rule : String) : describe rule = (parts rule).words.elim rule Words.text := by
  rw [describe]
  generalize parts rule = p
  have names : (p.days.filterMap fun d => (DAYS.find? (·.1 = d)).map Prod.snd) = p.dayList.map dayName := by
    rw [Parts.dayList, List.map_filterMap]
    exact List.filterMap_congr fun d _ => find?_eq_dayName
  have some : p.dayList.map dayName ≠ [] ↔ p.dayList ≠ [] := not_congr List.map_eq_nil_iff
  simp only [names, some]
  split
  case h_1 hourly =>
    have words : p.words = .some (.hours (max 1 p.interval) (p.minute.getD 0)) := by simp only [Parts.words, hourly]
    rw [words, Option.elim_some, Words.text_hours]
    by_cases one : 1 < p.interval
    · rw [if_pos one, if_pos (lt_max_of_lt_right one), Nat.max_eq_right one.le]
    · rw [if_neg one, if_neg (by omega)]
  case h_2 daily =>
    have words : p.words = .some (.clock (p.named false .every) (p.hour.getD 0) (p.minute.getD 0)) := by
      simp only [Parts.words, daily]
    rw [words, Option.elim_some, text_named false .every (List.cons_ne_nil _ _), if_neg Bool.false_ne_true,
      String.empty_append]
    rfl
  case h_3 weekly =>
    have words : p.words = .some (.clock (p.named true (.only true [0])) (p.hour.getD 0) (p.minute.getD 0)) := by
      simp only [Parts.words, weekly]
    rw [words, Option.elim_some, text_named true (.only true [0]) (List.cons_ne_nil _ _), if_pos rfl]
    rfl
  case h_4 hourly daily weekly =>
    rw [words_none hourly daily weekly]
    rfl

end Parts

end Kaluta.Routines
