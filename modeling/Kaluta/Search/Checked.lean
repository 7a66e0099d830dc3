import Mathlib.Algebra.Group.Int.Defs
import Mathlib.Algebra.GroupWithZero.Nat
import Kaluta.Search.Grammar

namespace Kaluta

def utf8Size (cs : List Char) : Nat :=
  (cs.map Char.utf8Size).sum

@[simp]
theorem utf8Size_append : utf8Size (l ++ r) = utf8Size l + utf8Size r := by
  simp [utf8Size]

@[simp]
theorem utf8Size_singleton : utf8Size [c] = c.utf8Size := by
  simp [utf8Size]

-- `str::split_at`, which panics inside a character and behind the end.
def splitAt : Nat → List Char → Option (List Char × List Char)
  | 0, cs            => some ([], cs)
  | _ + 1, []        => none
  | mid + 1, c :: cs =>
    if mid + 1 < c.utf8Size then none else (splitAt (mid + 1 - c.utf8Size) cs).map fun (l, r) => (c :: l, r)

theorem splitAt_cons (h : 0 < mid) : splitAt mid (c :: cs) =
    if mid < c.utf8Size then none else (splitAt (mid - c.utf8Size) cs).map fun (l, r) => (c :: l, r) := by
  obtain ⟨mid, rfl⟩ := Nat.exists_eq_add_one.mpr h
  rw [splitAt]

theorem splitAt_append (mid : Nat) :
    splitAt (utf8Size l + mid) (l ++ r) = (splitAt mid r).map fun (before, after) => (l ++ before, after) := by
  induction l
  case nil => simp [utf8Size]
  case cons c l ih =>
    have pos := c.utf8Size_pos
    have size : utf8Size (c :: l) + mid = c.utf8Size + (utf8Size l + mid) := by
      rw [← List.singleton_append, utf8Size_append, utf8Size_singleton, Nat.add_assoc]
    rw [size, List.cons_append, splitAt_cons (by omega), if_neg (by omega), Nat.add_sub_cancel_left, ih, Option.map_map]
    rfl

-- What is split before its last byte panics where its last character has more than one.
theorem splitAt_last (l : List Char) (c : Char) :
    splitAt (utf8Size (l ++ [c]) - 1) (l ++ [c]) = if c.utf8Size = 1 then some (l, [c]) else none := by
  have pos := c.utf8Size_pos
  rw [utf8Size_append, utf8Size_singleton, Nat.add_sub_assoc pos, splitAt_append]
  split
  case isTrue h => simp [h, splitAt]
  case isFalse h =>
    rw [splitAt_cons (by omega), if_pos (by omega)]
    rfl

-- `parse_age` as it takes the value apart.
def parseAgeAt (value : String) : Except (Fault ParseProblem) UInt32 :=
  match splitAt (utf8Size value.toList - 1) value.toList with
  | none           => throw .panic
  | some (n, unit) =>
    match parseUnsigned (2 ^ 32) n with
    | none   => throw (.error (.agesLookLike value))
    | some n =>
      let days (mult : Nat) := UInt32.ofNat (min (n * mult) (2 ^ 32 - 1))
      match unit.map Char.toLower with
      | ['d'] => pure (days 1)
      | ['m'] => pure (days 30)
      | ['y'] => pure (days 365)
      | _     => throw (.error (.agesLookLike value))

theorem parseAgeAt_eq (value : String) : parseAgeAt value = parseAge value := by
  rw [parseAgeAt, parseAge]
  obtain nil | ⟨l, c, concat⟩ := List.eq_nil_or_concat value.toList
  · rw [nil]
    rfl
  · rw [concat, List.concat_eq_append, splitAt_last, List.getLast?_concat, List.dropLast_concat]
    by_cases one : c.utf8Size = 1
    case neg => simp only [if_neg one, if_pos one]
    case pos =>
      simp only [one, if_true, ne_eq, not_true, if_false, List.map_cons, List.map_nil]
      cases parseUnsigned (2 ^ 32) l
      case none   => rfl
      case some n =>
        generalize c.toLower = u
        by_cases d : u = 'd'
        · subst d; rfl
        by_cases m : u = 'm'
        · subst m; rfl
        by_cases y : u = 'y'
        · subst y; rfl
        simp [d, m, y]

-- The digits of a size and its unit, as `parse_size` slices them.
def sizeUnitAt (lower : List Char) : Option (List Char × Nat) :=
  let digits := (splitAt (utf8Size lower - 1) lower).map (·.1)
  match lower.getLast? with
  | some 'k' => digits.map (·, 1024)
  | some 'm' => digits.map (·, 1024 * 1024)
  | some 'g' => digits.map (·, 1024 * 1024 * 1024)
  | _        => some (lower, 1)

def parseSizeAt (value : String) : Except (Fault ParseProblem) UInt64 :=
  match sizeUnitAt (value.toList.map Char.toLower) with
  | none           => throw .panic
  | some (n, mult) =>
    match parseUnsigned (2 ^ 64) n with
    | none   => throw (.error (.sizesLookLike value))
    | some n => pure (.ofNat (min (n * mult) (2 ^ 64 - 1)))

-- The units have one byte.
theorem sizeUnitAt_eq (lower : List Char) : sizeUnitAt lower = some (sizeUnit lower) := by
  rw [sizeUnitAt, sizeUnit]
  obtain rfl | ⟨l, c, rfl⟩ := List.eq_nil_or_concat lower
  · rfl
  · rw [List.concat_eq_append, splitAt_last, List.getLast?_concat, List.dropLast_concat]
    by_cases k : c = 'k'
    · subst k; rfl
    by_cases m : c = 'm'
    · subst m; rfl
    by_cases g : c = 'g'
    · subst g; rfl
    simp [k, m, g]

theorem parseSizeAt_eq (value : String) : parseSizeAt value = Fault.lift (parseSize value) := by
  rw [parseSizeAt, parseSize, sizeUnitAt_eq]
  dsimp only
  cases parseUnsigned (2 ^ 64) (sizeUnit (value.toList.map Char.toLower)).1 <;> rfl

-- A result of `i64`, which panics on an overflow.
def i64 (n : Int) : Option Int :=
  if -2 ^ 63 ≤ n ∧ n < 2 ^ 63 then some n else none

theorem i64_eq (h : -2 ^ 63 ≤ n ∧ n < 2 ^ 63) : i64 n = some n :=
  if_pos h

-- `days_from_civil` with each of its operations on `i64`.
def daysFromCivilAt (y m d : Int) : Option Int := do
  let y   ← (if m ≤ 2 then i64 (y - 1) else some y)
  let era := y / 400
  let yoe ← i64 (y - (← i64 (era * 400)))
  let mp  := (← i64 (m + 9)) % 12
  let doy ← i64 ((← i64 ((← i64 ((← i64 (153 * mp)) + 2)) / 5 + d)) - 1)
  let doe ← i64 ((← i64 ((← i64 ((← i64 (yoe * 365)) + yoe / 4)) - yoe / 100)) + doy)
  i64 ((← i64 ((← i64 (era * 146097)) + doe)) - 719468)

def IsCivil (y m d : Int) : Prop :=
  1970 ≤ y ∧ y ≤ 9999 ∧ 1 ≤ m ∧ m ≤ 12 ∧ 1 ≤ d ∧ d ≤ 31

instance : Decidable (IsCivil y m d) :=
  inferInstanceAs (Decidable (_ ∧ _))

theorem daysFromCivilAt_eq (h : IsCivil y m d) : daysFromCivilAt y m d = some (daysFromCivil y m d) := by
  obtain ⟨hy, hy', hm, hm', hd, hd'⟩ := h
  have year : (if m ≤ 2 then i64 (y - 1) else some y) = some (if m ≤ 2 then y - 1 else y) := by
    split
    · exact i64_eq (by omega)
    · rfl
  have since : 1969 ≤ (if m ≤ 2 then y - 1 else y) := by split <;> omega
  have upTo : (if m ≤ 2 then y - 1 else y) ≤ 9999 := by split <;> omega
  simp only [daysFromCivilAt, daysFromCivil, Option.bind_eq_bind]
  rw [year]
  generalize (if m ≤ 2 then y - 1 else y) = y at since upTo
  have era_bounds : 0 ≤ y / 400 ∧ y / 400 < 25 := by omega
  have yoe_bounds : 0 ≤ y - y / 400 * 400 ∧ y - y / 400 * 400 < 400 := by omega
  rw [Option.bind_some, i64_eq (by omega), Option.bind_some, i64_eq (by omega), Option.bind_some]
  generalize y / 400 = era at era_bounds yoe_bounds
  generalize y - era * 400 = yoe at yoe_bounds
  have leap_bounds : 0 ≤ yoe / 4 ∧ yoe / 4 < 100 := by omega
  have century_bounds : 0 ≤ yoe / 100 ∧ yoe / 100 < 4 := by omega
  have mp_bounds : 0 ≤ (m + 9) % 12 ∧ (m + 9) % 12 < 12 := by omega
  have months_bounds : 0 ≤ (153 * ((m + 9) % 12) + 2) / 5 ∧ (153 * ((m + 9) % 12) + 2) / 5 < 400 := by omega
  generalize yoe / 4 = leap at leap_bounds
  generalize yoe / 100 = century at century_bounds
  rw [i64_eq (by omega), Option.bind_some, i64_eq (by omega), Option.bind_some, i64_eq (by omega), Option.bind_some,
    i64_eq (by omega), Option.bind_some, i64_eq (by omega), Option.bind_some]
  generalize (153 * ((m + 9) % 12) + 2) / 5 = months at months_bounds
  rw [i64_eq (by omega), Option.bind_some, i64_eq (by omega), Option.bind_some, i64_eq (by omega), Option.bind_some,
    i64_eq (by omega), Option.bind_some, i64_eq (by omega), Option.bind_some, i64_eq (by omega), Option.bind_some,
    i64_eq (by omega)]

-- `parse_date` with each of its operations on `i64`.
def parseDateAt (value : String) : Except (Fault ParseProblem) Millis :=
  match value.toList.splitOnP fun c => c = '-' || c = '/' with
  | [y, m, d] => do
    let some y := parseI64 y | throw (.error (.badYear value))
    let some m := parseI64 m | throw (.error (.badMonth value))
    let some d := parseI64 d | throw (.error (.badDay value))
    if IsCivil y m d then
      match daysFromCivilAt y m d >>= fun days => i64 (days * 86400000) with
      | none        => throw .panic
      | some millis => pure millis
    else
      throw (.error (.notADate value))
  | _         => throw (.error (.datesLookLike value))

theorem daysFromCivil_bounds (h : IsCivil y m d) : -10 ^ 6 ≤ daysFromCivil y m d ∧ daysFromCivil y m d < 10 ^ 7 := by
  obtain ⟨hy, hy', hm, hm', hd, hd'⟩ := h
  simp only [daysFromCivil]
  split <;> omega

theorem parseDateAt_eq (value : String) : parseDateAt value = Fault.lift (parseDate value) := by
  rw [parseDateAt, parseDate]
  generalize value.toList.splitOnP _ = parts
  rcases parts with _ | ⟨y, _ | ⟨m, _ | ⟨d, _ | _⟩⟩⟩
  case cons.cons.cons.nil =>
    dsimp only
    cases parseI64 y
    case none => rfl
    cases parseI64 m
    case some.none => rfl
    cases parseI64 d
    case some.some.none => rfl
    case some.some.some y m d =>
      by_cases h : IsCivil y m d
      case neg =>
        dsimp only
        rw [if_neg h]
        rw [IsCivil] at h
        rw [if_neg h]
        rfl
      case pos =>
        have := daysFromCivil_bounds h
        dsimp only
        rw [if_pos h, daysFromCivilAt_eq h, Option.bind_eq_bind, Option.bind_some, i64_eq (by omega)]
        rw [IsCivil] at h
        rw [if_pos h]
        rfl
  all_goals rfl

end Kaluta
