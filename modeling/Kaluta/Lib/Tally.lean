import Mathlib.Algebra.Order.Ring.Int
import Kaluta.Lib.Table

-- Counters over a table's rows: of the rows in each class, how many there are, and how many of them
-- are flagged. A store that keeps such counters changes them by deltas (`bump`) as rows come and go.

-- Adds to the counters of one class, or of none.
def bump [DecidableEq ι] (stat : ι → Int × Int) (c : Option ι) (n u : Int) : ι → Int × Int :=
  fun i => if c = some i then ((stat i).1 + n, (stat i).2 + u) else stat i

@[simp]
theorem bump_none [DecidableEq ι] {stat : ι → Int × Int} : bump stat none n u = stat := by
  funext i
  simp [bump]

namespace Table

variable {α : Type u} {κ : Type v} {key : α → κ} {t : Table α key} {a : α} {p q : α → Bool}
variable {ι : Type w} [DecidableEq ι] {cls cls' : α → Option ι} {flag flag' : α → Bool}

def tally (t : Table α key) (cls : α → Option ι) (flag : α → Bool) : ι → Int × Int :=
  fun i => (t.count (cls · = some i), t.count fun a => cls a = some i && flag a)

theorem tally_congr (hc : ∀ a ∈ t, cls a = cls' a) (hf : ∀ a ∈ t, flag a = flag' a) :
    t.tally cls flag = t.tally cls' flag' := by
  funext i
  simp only [tally, Prod.mk.injEq, Nat.cast_inj]
  constructor
  · exact count_congr fun a ha => by simp [hc a ha]
  · exact count_congr fun a ha => by simp [hc a ha, hf a ha]

theorem tally_pos (ha : a ∈ t) (hc : cls a = some i) : 0 < (t.tally cls flag i).1 := by
  have : t.count (cls · = some i) ≠ 0 := by
    intro h
    have := count_eq_zero.mp h a ha
    simp [hc] at this
  simp only [tally]
  omega

theorem tally_insert {h : ∀ b ∈ t, key b ≠ key a} :
    (t.insert a h).tally cls flag = bump (t.tally cls flag) (cls a) 1 (flag a).toNat := by
  funext i
  simp only [tally, bump, count_insert]
  by_cases hc : cls a = some i <;> cases hf : flag a <;> simp [hc]

-- A predicate that holds of exactly one row picks that row's part of a count.
theorem count_and_single (ha : a ∈ t) (hp : ∀ b ∈ t, p b = true ↔ b = a) :
    t.count (fun b => q b && p b) = if q a then 1 else 0 := by
  cases hq : q a
  case false =>
    refine count_eq_zero.mpr fun b hb => ?_
    cases hpb : p b
    case false => simp
    case true  => simp [(hp b hb).mp hpb, hq]
  case true =>
    refine count_eq_one ha (by simp [hq, (hp a ha).mpr rfl]) fun b hb h => ?_
    exact (hp b hb).mp (by simp_all)

theorem count_delete_single (ha : a ∈ t) (hp : ∀ b ∈ t, p b = true ↔ b = a) :
    (t.delete p).count q + (if q a then 1 else 0) = t.count q := by
  rw [count_delete, count_eq_add t q p, count_and_single ha hp, Nat.add_comm]

theorem tally_delete (ha : a ∈ t) (hp : ∀ b ∈ t, p b = true ↔ b = a) :
    (t.delete p).tally cls flag = bump (t.tally cls flag) (cls a) (-1) (-(flag a).toNat) := by
  funext i
  have h₁ := count_delete_single (q := (cls · = some i)) ha hp
  have h₂ := count_delete_single (q := fun b => cls b = some i && flag b) ha hp
  simp only [tally, bump, ← h₁, ← h₂]
  by_cases hc : cls a = some i <;> cases hf : flag a <;> simp [hc]

theorem tally_delete_none (h : ∀ a ∈ t, p a = true → cls a = none) :
    (t.delete p).tally cls flag = t.tally cls flag := by
  funext i
  simp only [tally, count_delete, Prod.mk.injEq, Nat.cast_inj]
  constructor <;>
  · refine count_congr fun a ha => ?_
    cases hp : p a <;> simp_all

-- Changing one row is taking it out and putting it back in changed.
theorem tally_update [DecidableEq κ] {f : α → α} (hf : ∀ a, key (f a) = key a) (ha : a ∈ t) :
    (t.update (key · = key a) f hf).tally cls flag =
    bump ((t.delete (key · = key a)).tally cls flag) (cls (f a)) 1 (flag (f a)).toNat := by
  have hp : ∀ b ∈ t, decide (key b = key a) = true ↔ b = a :=
    fun b hb => ⟨fun h => eq_of_key_eq hb ha (by simpa using h), fun h => by simp [h]⟩
  have count_eq : ∀ q : α → Bool, (t.update (key · = key a) f hf).count q =
      (t.delete (key · = key a)).count q + if q (f a) then 1 else 0 := by
    intro q
    rw [count_update, count_delete, count_eq_add t _ (key · = key a), count_and_single ha hp,
      Nat.add_comm]
    congr 1
    · refine count_congr fun b _ => ?_
      by_cases hb : key b = key a <;> simp [hb]
    · simp
  funext i
  simp only [tally, bump, count_eq]
  by_cases hc : cls (f a) = some i <;> cases hb : flag (f a) <;> simp [hc]

end Table
