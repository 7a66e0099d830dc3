import Mathlib.Data.List.Basic
import Mathlib.Algebra.Order.Ring.Int

-- Cron expressions of five fields that leave the day of the month and the month open, read in UTC.
namespace Cron

inductive Field
  | any
  | step (k : Nat)
  | list (ns : List Nat)
  deriving DecidableEq

structure Expr where
  minute  : Field
  hour    : Field
  weekday : Field -- Sunday is 0.
  deriving DecidableEq

namespace Field

def Allows : Field → Int → Prop
  | any    , _ => True
  | step k , n => (k : Int) ∣ n
  | list ns, n => ∃ m ∈ ns, (m : Int) = n

instance : (f : Field) → (n : Int) → Decidable (f.Allows n)
  | any    , _ => inferInstanceAs (Decidable True)
  | step k , n => inferInstanceAs (Decidable ((k : Int) ∣ n))
  | list ns, n => inferInstanceAs (Decidable (∃ m ∈ ns, (m : Int) = n))

def text : Field → String
  | any     => "*"
  | step k  => "*/" ++ toString k
  | list ns => ",".intercalate (ns.map toString)

end Field

def number (digits : List Char) : Option Nat :=
  if digits ≠ [] ∧ digits.all Char.isDigit then some (Nat.ofDigitChars 10 digits 0) else none

def Field.read : List Char → Option Field
  | ['*']             => some any
  | '*' :: '/' :: cs  => (number cs).map step
  | cs                => ((cs.splitOn ',').mapM number).map list

namespace Expr

-- A minute is counted from the beginning of 1970, a Thursday.
def Fires (e : Expr) (minute : Int) : Prop :=
  e.minute.Allows (minute % 60) ∧ e.hour.Allows (minute / 60 % 24) ∧ e.weekday.Allows ((minute / 1440 + 4) % 7)

instance (e : Expr) (minute : Int) : Decidable (e.Fires minute) :=
  inferInstanceAs (Decidable (_ ∧ _ ∧ _))

-- After every minute comes one with the given minute, hour and weekday.
theorem exists_fires {e : Expr} {m h d : Int} (minute : e.minute.Allows m) (hour : e.hour.Allows h)
    (weekday : e.weekday.Allows d) (hm : 0 ≤ m ∧ m < 60) (hh : 0 ≤ h ∧ h < 24) (hd : 0 ≤ d ∧ d < 7) (start : Int) :
    ∃ n : Nat, e.Fires (start + n) := by
  have wait : 0 ≤ (m + 60 * h + 1440 * (d + 3) - start) % 10080 := Int.emod_nonneg _ (by decide)
  obtain ⟨n, hn⟩ := Int.eq_ofNat_of_zero_le wait
  have first  : (start + n) % 60 = m := by omega
  have second : (start + n) / 60 % 24 = h := by omega
  have third  : ((start + n) / 1440 + 4) % 7 = d := by omega
  exact ⟨n, first ▸ minute, second ▸ hour, third ▸ weekday⟩

def text (e : Expr) : String :=
  e.minute.text ++ " " ++ e.hour.text ++ " * * " ++ e.weekday.text

def read (text : String) : Option Expr :=
  match text.toList.splitOn ' ' with
  | [m, h, ['*'], ['*'], d] =>
    match Field.read m, Field.read h, Field.read d with
    | some minute, some hour, some weekday => some { minute, hour, weekday }
    | _          , _        , _            => none
  | _                       => none

end Expr

section Text

variable {n : Nat} {ns : List Nat} {f : Field}

theorem digits_toString (n : Nat) : (toString n).toList = Nat.toDigits 10 n :=
  Nat.toList_repr

theorem isDigit_of_mem {c : Char} (h : c ∈ (toString n).toList) : c.isDigit = true :=
  Nat.isDigit_of_mem_toDigits (by decide) (by decide) (digits_toString n ▸ h)

theorem number_toString (n : Nat) : number (toString n).toList = some n := by
  have digits : ∀ c ∈ (toString n).toList, c.isDigit = true := fun _ => isDigit_of_mem
  rw [number, if_pos ⟨digits_toString n ▸ Nat.toDigits_ne_nil, List.all_eq_true.mpr digits⟩, digits_toString,
    Nat.ofDigitChars_ten_toDigits]

theorem text_one (n : Nat) : (Field.list [n]).text = toString n := by
  rw [Field.text, List.map_singleton, String.intercalate_singleton]

theorem toList_list : (Field.list ns).text.toList = [','].intercalate (ns.map fun n => (toString n).toList) := by
  rw [Field.text, String.toList_intercalate, List.map_map]
  rfl

-- The fields that have a text: a list has a number.
def Field.Named : Field → Prop
  | list ns => ns ≠ []
  | _       => True

theorem space_not_mem (f : Field) : ' ' ∉ f.text.toList := by
  have digits (n : Nat) : ' ' ∉ (toString n).toList := fun h => absurd (isDigit_of_mem h) (by decide)
  cases f
  case any     => decide
  case step k  =>
    rw [Field.text, String.toList_append, List.mem_append]
    exact not_or.mpr ⟨by decide, digits k⟩
  case list ns =>
    rw [toList_list]
    intro there
    induction ns
    case nil => exact absurd there List.not_mem_nil
    case cons n ns ih =>
      cases ns
      case nil => exact digits n (by simpa using there)
      case cons m ns =>
        rw [List.map_cons, List.map_cons, List.intercalate_cons_cons, List.mem_append, List.mem_append] at there
        rcases there with (first | comma) | rest
        · exact digits n first
        · exact absurd (List.mem_singleton.mp comma) (by decide)
        · exact ih rest

theorem read_field (h : f.Named) : Field.read f.text.toList = some f := by
  cases f
  case any     => rfl
  case step k  =>
    have eq : (Field.step k).text.toList = '*' :: '/' :: (toString k).toList := by
      rw [Field.text, String.toList_append]
      rfl
    rw [eq, Field.read, number_toString]
    rfl
  case list ns =>
    have comma : ∀ l ∈ ns.map (fun n => (toString n).toList), ',' ∉ l := by
      intro l hl
      obtain ⟨n, _, rfl⟩ := List.mem_map.mp hl
      exact fun h => absurd (isDigit_of_mem h) (by decide)
    have ne : ns.map (fun n => (toString n).toList) ≠ [] := fun nil => h (List.map_eq_nil_iff.mp nil)
    have numbers : (ns.map fun n => (toString n).toList).mapM number = some ns := by
      rw [List.mapM_map, show number ∘ (fun n => (toString n).toList) = pure ∘ id from funext number_toString]
      exact List.mapM_pure.trans (congrArg some (List.map_id ns))
    have first : ∀ cs, (Field.list ns).text.toList ≠ '*' :: cs := by
      intro cs eq
      obtain ⟨n, ns, rfl⟩ := List.exists_cons_of_ne_nil h
      have some : (toString n).toList ≠ [] := digits_toString n ▸ Nat.toDigits_ne_nil
      obtain ⟨d, ds, digits⟩ := List.exists_cons_of_ne_nil some
      have digit : d.isDigit = true := isDigit_of_mem (digits ▸ List.mem_cons_self)
      rw [toList_list, List.map_cons, digits] at eq
      cases ns
      case nil      => cases eq; exact absurd digit (by decide)
      case cons m _ => cases eq; exact absurd digit (by decide)
    rw [Field.read]
    · rw [toList_list, List.splitOn_intercalate ',' comma ne, numbers]
      rfl
    · exact first []
    · exact fun cs => first ('/' :: cs)

theorem Expr.read_text {e : Expr} (minute : e.minute.Named) (hour : e.hour.Named) (weekday : e.weekday.Named) :
    Expr.read e.text = some e := by
  have eq : e.text.toList =
      [' '].intercalate [e.minute.text.toList, e.hour.text.toList, ['*'], ['*'], e.weekday.text.toList] := by
    simp only [Expr.text, String.toList_append]
    simp [List.intercalate]
  have spaces : ∀ l ∈ [e.minute.text.toList, e.hour.text.toList, ['*'], ['*'], e.weekday.text.toList], ' ' ∉ l := by
    simp [space_not_mem]
  rw [Expr.read, eq, List.splitOn_intercalate ' ' spaces (List.cons_ne_nil _ _)]
  simp only [read_field minute, read_field hour, read_field weekday]

end Text

end Cron
