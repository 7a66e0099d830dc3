import Mathlib.Algebra.BigOperators.Group.List.Basic
import Mathlib.Algebra.Group.Idempotent
import Mathlib.Data.Set.Basic
import Mathlib.Data.List.Basic
import Mathlib.Logic.Function.Basic

-- What is written over a set: the elements put in, those taken out, and those left as they are.
def Overwrite (α : Type u) :=
  α → Option Bool

namespace Overwrite

variable {α : Type u} {o r : Overwrite α} {s : Set α} {a : α}

def apply (o : Overwrite α) (s : Set α) : Set α :=
  { a | (o a).elim (a ∈ s) (· = true) }

theorem mem_apply_some (h : o a = some b) : a ∈ o.apply s ↔ b = true := by
  simp [apply, h]

theorem mem_apply_none (h : o a = none) : a ∈ o.apply s ↔ a ∈ s := by
  simp [apply, h]

-- One overwrite after another: the last one that has a say wins.
instance : Monoid (Overwrite α) where
  one := fun _ => none
  mul o r := fun a => (r a).or (o a)
  one_mul _ := funext fun _ => Option.or_none
  mul_one _ := funext fun _ => Option.none_or
  mul_assoc _ _ _ := funext fun _ => (Option.or_assoc ..).symm

@[simp]
theorem one_apply : (1 : Overwrite α) a = none :=
  rfl

theorem mul_apply : (o * r) a = (r a).or (o a) :=
  rfl

theorem mul_eq_none : (o * r) a = none ↔ o a = none ∧ r a = none := by
  rw [mul_apply, Option.or_eq_none_iff, and_comm]

theorem prod_eq_none {os : List (Overwrite α)} : os.prod a = none ↔ ∀ o ∈ os, o a = none := by
  induction os
  case nil          => simp
  case cons o os ih => simp [List.prod_cons, mul_eq_none, ih]

theorem exists_of_prod_eq_some {os : List (Overwrite α)} (h : os.prod a = some b) : ∃ o ∈ os, o a = some b := by
  induction os
  case nil => exact nomatch h
  case cons o os ih =>
    rw [List.prod_cons, mul_apply] at h
    cases hos : os.prod a
    case none =>
      rw [hos, Option.none_or] at h
      exact ⟨o, List.mem_cons_self, h⟩
    case some =>
      have ⟨o', ho', h'⟩ := ih (by rw [hos, Option.some_or] at h; rw [hos, h])
      exact ⟨o', List.mem_cons_of_mem o ho', h'⟩

@[simp]
theorem mul_self : o * o = o := by
  funext a
  rw [mul_apply]
  cases o a <;> rfl

@[simp]
theorem apply_mul : (o * r).apply s = r.apply (o.apply s) := by
  ext a
  cases hr : r a
  case none =>
    have : (o * r) a = o a := by simp [mul_apply, hr]
    rw [mem_apply_none hr]
    simp [apply, this]
  case some b =>
    have : (o * r) a = some b := by simp [mul_apply, hr]
    rw [mem_apply_some hr, mem_apply_some this]

-- Nothing is written that is not so already.
def Agrees (o : Overwrite α) (s : Set α) : Prop :=
  ∀ a b, o a = some b → (b = true ↔ a ∈ s)

theorem apply_eq_self : o.apply s = s ↔ o.Agrees s := by
  constructor
  · intro h a b hb
    rw [← mem_apply_some (s := s) hb, h]
  · intro h
    ext a
    cases hb : o a
    case none   => exact mem_apply_none hb
    case some b => exact (mem_apply_some hb).trans (h a b hb)

theorem apply_eq_iff {t : Set α} :
    o.apply s = t ↔ o.Agrees t ∧ ∀ a, o a = none → (a ∈ s ↔ a ∈ t) := by
  constructor
  · rintro rfl
    exact ⟨fun a b hb => (mem_apply_some hb).symm, fun a hn => (mem_apply_none hn).symm⟩
  · rintro ⟨h, hn⟩
    ext a
    cases hb : o a
    case none   => exact (mem_apply_none hb).trans (hn a hb)
    case some b => exact (mem_apply_some hb).trans (h a b hb)

-- An overwrite that has a say on all that another wrote takes it back exactly when what it writes is
-- what was there before.
theorem apply_apply_eq_self (h : ∀ a, r a = none → o a = none) :
    r.apply (o.apply s) = s ↔ r.Agrees s := by
  have : o * r = r := by
    funext a
    rw [mul_apply]
    cases hr : r a
    case none => exact h a hr
    case some => rfl
  rw [← apply_mul, this, apply_eq_self]

@[simp]
theorem agrees_one : (1 : Overwrite α).Agrees s :=
  nofun

theorem Agrees.mul (ho : o.Agrees s) (hr : r.Agrees s) : (o * r).Agrees s := by
  rw [← apply_eq_self, apply_mul, apply_eq_self.mpr ho, apply_eq_self.mpr hr]

theorem agrees_prod {os : List (Overwrite α)} (h : ∀ o ∈ os, o.Agrees s) : os.prod.Agrees s := by
  induction os
  case nil          => exact agrees_one
  case cons o os ih =>
    have ⟨ho, hos⟩ := List.forall_mem_cons.mp h
    rw [List.prod_cons]
    exact ho.mul (ih hos)

@[simp]
theorem apply_one : (1 : Overwrite α).apply = id :=
  funext fun _ => apply_eq_self.mpr agrees_one

theorem apply_prod {os : List (Overwrite α)} : os.prod.apply s = os.foldl (fun s o => o.apply s) s := by
  induction os generalizing s
  case nil          => simp
  case cons o os ih => rw [List.prod_cons, apply_mul, ih, List.foldl_cons]

-- Overwriting with the same again and again, or not at all.
theorem prod_ite {ι : Type v} (is : List ι) (p : ι → Prop) [DecidablePred p] :
    (is.map fun i => if p i then o else (1 : Overwrite α)).prod =
      if ∃ i ∈ is, p i then o else 1 := by
  induction is
  case nil => simp
  case cons i is ih =>
    rw [List.map_cons, List.prod_cons, ih]
    by_cases hi : p i <;> by_cases his : ∃ i ∈ is, p i <;> simp_all

section Edit

variable [DecidableEq α] {add remove : List α}

-- Takes elements out and puts elements in, in this order.
def edit (add remove : List α) : Overwrite α :=
  fun a => if a ∈ add then some true else if a ∈ remove then some false else none

@[simp]
theorem mem_apply_edit : a ∈ (edit add remove).apply s ↔ (a ∈ s ∧ a ∉ remove) ∨ a ∈ add := by
  simp only [apply, edit, Set.mem_ofPred_eq]
  split
  · simp [*]
  · split <;> simp [*]

theorem edit_eq_none : edit add remove a = none ↔ a ∉ add ∧ a ∉ remove := by
  simp only [edit]
  split
  · simp [*]
  · split <;> simp [*]

theorem mem_of_edit_eq_false (h : edit add remove a = some false) : a ∈ remove := by
  simp only [edit] at h
  split at h
  · exact nomatch h
  · split at h
    · assumption
    · exact nomatch h

@[simp]
theorem edit_nil : edit ([] : List α) [] = 1 := by
  funext a
  exact edit_eq_none.mpr ⟨List.not_mem_nil, List.not_mem_nil⟩

-- Putting one element in first is part of putting all of them in.
theorem edit_mul_edit (ha : a ∈ add) (hr : a ∉ remove) :
    edit [a] [] * edit (add.filter (· ≠ a)) remove = edit add remove := by
  funext b
  rw [mul_apply]
  by_cases hb : b = a
  case pos => simp [edit, hb, ha, hr]
  case neg => simp [edit, hb]

theorem agrees_edit :
    (edit add remove).Agrees s ↔ (∀ a ∈ add, a ∈ s) ∧ ∀ a ∈ remove, a ∉ add → a ∉ s := by
  constructor
  · intro h
    refine ⟨fun a ha => (h a true (by simp [edit, ha])).mp rfl, fun a hr ha hs => ?_⟩
    exact absurd ((h a false (by simp [edit, hr, ha])).mpr hs) Bool.false_ne_true
  · rintro ⟨hadd, hremove⟩ a b hb
    simp only [edit] at hb
    split at hb
    case isTrue ha  => cases hb; simp [hadd a ha]
    case isFalse ha =>
      split at hb <;> cases hb
      case isTrue hr => simp [hremove a hr ha]

-- Writes a whole set.
def assign (l : List α) : Overwrite α :=
  fun a => some (a ∈ l)

@[simp]
theorem mem_apply_assign {l : List α} : a ∈ (assign l).apply s ↔ a ∈ l := by
  simp [apply, assign]

theorem mul_assign {l : List α} : o * assign l = assign l :=
  rfl

theorem agrees_assign {l : List α} : (assign l).Agrees s ↔ ∀ a, a ∈ l ↔ a ∈ s := by
  simp [Agrees, assign]

end Edit

@[simp]
theorem apply_apply : o.apply (o.apply s) = o.apply s := by
  rw [← apply_mul, mul_self]

end Overwrite

-- Cells found by a key, some of them empty.
namespace Cells

variable {κ : Type u} {σ : Type v} [DecidableEq κ] {cells : κ → Option σ} {k k' : κ} {f : σ → σ}

def modify (cells : κ → Option σ) (k : κ) (f : σ → σ) : κ → Option σ :=
  Function.update cells k ((cells k).map f)

theorem modify_self : modify cells k f k = (cells k).map f :=
  Function.update_self ..

theorem modify_ne (h : k' ≠ k) : modify cells k f k' = cells k' :=
  Function.update_of_ne h ..

def modifyAll (cells : κ → Option σ) (ms : List (κ × (σ → σ))) : κ → Option σ :=
  ms.foldl (fun cells m => modify cells m.1 m.2) cells

-- Each cell is changed by what is meant for it, in order.
theorem modifyAll_apply {ms : List (κ × (σ → σ))} :
    modifyAll cells ms k = (cells k).map fun s => (ms.filter (·.1 = k)).foldl (fun s m => m.2 s) s := by
  rw [modifyAll]
  induction ms generalizing cells
  case nil => simp
  case cons m ms ih =>
    rw [List.foldl_cons, ih]
    by_cases h : m.1 = k
    case pos =>
      subst h
      rw [modify_self, Option.map_map]
      simp [Function.comp_def]
    case neg =>
      rw [modify_ne (Ne.symm h)]
      simp [h]

theorem modifyAll_append {ms ms' : List (κ × (σ → σ))} :
    modifyAll cells (ms ++ ms') = modifyAll (modifyAll cells ms) ms' :=
  List.foldl_append

theorem isSome_modifyAll {ms : List (κ × (σ → σ))} :
    (modifyAll cells ms k).isSome = (cells k).isSome := by
  rw [modifyAll_apply, Option.isSome_map]

-- Doing to many cells what it is enough to do once.
theorem modifyAll_map {ks : List κ} (hf : ∀ s, f (f s) = f s) :
    modifyAll cells (ks.map (·, f)) k = if k ∈ ks then (cells k).map f else cells k := by
  rw [modifyAll]
  induction ks generalizing cells
  case nil => simp
  case cons k' ks ih =>
    rw [List.map_cons, List.foldl_cons, ih]
    by_cases h : k = k'
    case pos =>
      subst h
      simp [modify_self, Function.comp_def, hf]
    case neg => simp [h, modify_ne h]

end Cells
