import Mathlib.Order.Lattice.Nat
import Mathlib.Data.List.Basic

-- The Levenshtein distance of lists: the fewest edits of single elements that turn one into the other.
namespace EditDistance

variable {α : Type u}

inductive Edit : List α → List α → Prop
  | insert (y : α) (b : List α)       : Edit b (y :: b)
  | delete (x : α) (b : List α)       : Edit (x :: b) b
  | substitute (x y : α) (b : List α) : Edit (x :: b) (y :: b)
  | cons (x : α)                      : Edit b c → Edit (x :: b) (x :: c)

-- One after another.
inductive Edits : Nat → List α → List α → Prop
  | refl (a : List α) : Edits 0 a a
  | head              : Edit a b → Edits n b c → Edits (n + 1) a c

noncomputable def levenshtein (a b : List α) : Nat :=
  sInf { n | Edits n a b }

-- Edits from left to right, none of them of what another has edited.
inductive Align : List α → List α → Nat → Prop
  | nil                    : Align [] [] 0
  | keep (x : α)           : Align a b n → Align (x :: a) (x :: b) n
  | substitute (x y : α)   : Align a b n → Align (x :: a) (y :: b) (n + 1)
  | delete (x : α)         : Align a b n → Align (x :: a) b (n + 1)
  | insert (y : α)         : Align a b n → Align a (y :: b) (n + 1)

variable {a b c : List α}

namespace Align

theorem refl (a : List α) : Align a a 0 := by
  induction a
  case nil         => exact nil
  case cons x _ ih => exact ih.keep x

theorem symm (h : Align a b n) : Align b a n := by
  induction h
  case nil                 => exact nil
  case keep x _ ih         => exact ih.keep x
  case substitute x y _ ih => exact ih.substitute y x
  case delete x _ ih       => exact ih.insert x
  case insert y _ ih       => exact ih.delete y

theorem append (h : Align a b m) (h' : Align a' b' n) : Align (a ++ a') (b ++ b') (m + n) := by
  induction h
  case nil                   => rwa [Nat.zero_add]
  case keep x _ ih           => exact ih.keep x
  case substitute m x y _ ih => exact Nat.succ_add m n ▸ ih.substitute x y
  case delete m x _ ih       => exact Nat.succ_add m n ▸ ih.delete x
  case insert m y _ ih       => exact Nat.succ_add m n ▸ ih.insert y

theorem reverse (h : Align a b n) : Align a.reverse b.reverse n := by
  induction h
  case nil                 => exact nil
  case keep x _ ih         => simpa using ih.append (nil.keep x)
  case substitute x y _ ih => simpa using ih.append (nil.substitute x y)
  case delete x _ ih       => simpa using ih.append (nil.delete x)
  case insert y _ ih       => simpa using ih.append (nil.insert y)

theorem delete_all (a : List α) : Align a [] a.length := by
  induction a
  case nil         => exact nil
  case cons x _ ih => exact ih.delete x

theorem length_le (h : Align a b n) : a.length ≤ b.length + n ∧ b.length ≤ a.length + n ∧ n ≤ a.length + b.length := by
  induction h
  case nil => simp
  all_goals simp only [List.length_cons]; omega

theorem eq_of_zero (h : Align a b 0) : a = b := by
  generalize hn : 0 = n at h
  induction h
  case nil               => rfl
  case keep x _ ih       => rw [ih hn]
  case substitute        => cases hn
  case delete            => cases hn
  case insert            => cases hn

theorem le_max (a b : List α) : ∃ n ≤ max a.length b.length, Align a b n := by
  induction a generalizing b
  case nil => exact ⟨b.length, le_max_right _ _, (delete_all b).symm⟩
  case cons x a ih =>
    cases b
    case nil => exact ⟨_, le_max_left _ _, delete_all _⟩
    case cons y b =>
      have ⟨n, le, h⟩ := ih b
      refine ⟨n + 1, ?_, h.substitute x y⟩
      simp only [List.length_cons]
      omega

-- One more edit costs at most one more.
theorem trans_edit (h : Align a b m) (e : Edit b c) : ∃ n ≤ m + 1, Align a c n := by
  induction e generalizing a m
  case insert y b => exact ⟨m + 1, le_rfl, h.insert y⟩
  case delete x b =>
    generalize hb : x :: b = b' at h
    induction h
    case nil                  => cases hb
    case keep z n h _         => cases hb; exact ⟨_, le_rfl, h.delete _⟩
    case substitute n z _ h _ => cases hb; exact ⟨_, Nat.le_succ _, h.delete z⟩
    case insert n _ h _       => cases hb; exact ⟨n, by omega, h⟩
    case delete n z h ih =>
      have ⟨k, le, h⟩ := ih hb
      exact ⟨k + 1, Nat.succ_le_succ le, h.delete z⟩
  case substitute x y b =>
    generalize hb : x :: b = b' at h
    induction h
    case nil                  => cases hb
    case keep z n h _         => cases hb; exact ⟨_, le_rfl, h.substitute _ y⟩
    case substitute n z _ h _ => cases hb; exact ⟨_, Nat.le_succ _, h.substitute z y⟩
    case insert n _ h _       => cases hb; exact ⟨_, Nat.le_succ _, h.insert y⟩
    case delete n z h ih =>
      have ⟨k, le, h⟩ := ih hb
      exact ⟨k + 1, Nat.succ_le_succ le, h.delete z⟩
  case cons b c x e ih =>
    generalize hb : x :: b = b' at h
    induction h
    case nil => cases hb
    case keep z n h _ =>
      cases hb
      have ⟨k, le, h⟩ := ih h
      exact ⟨k, le, h.keep x⟩
    case substitute n z _ h _ =>
      cases hb
      have ⟨k, le, h⟩ := ih h
      exact ⟨k + 1, Nat.succ_le_succ le, h.substitute z x⟩
    case insert n _ h _ =>
      cases hb
      have ⟨k, le, h⟩ := ih h
      exact ⟨k + 1, Nat.succ_le_succ le, h.insert x⟩
    case delete n z h ih' =>
      have ⟨k, le, h⟩ := ih' hb
      exact ⟨k + 1, Nat.succ_le_succ le, h.delete z⟩

end Align

namespace Edits

theorem trans_edit (h : Edits n a b) (e : Edit b c) : Edits (n + 1) a c := by
  induction h
  case refl        => exact .head e (.refl _)
  case head e' _ ih => exact .head e' (ih e)

theorem cons (x : α) (h : Edits n a b) : Edits n (x :: a) (x :: b) := by
  induction h
  case refl        => exact .refl _
  case head e _ ih => exact .head (e.cons x) ih

theorem of_align (h : Align a b n) : Edits n a b := by
  induction h
  case nil                 => exact .refl []
  case keep x _ ih         => exact ih.cons x
  case substitute x y _ ih => exact .head (.substitute x y _) (ih.cons y)
  case delete x _ ih       => exact .head (.delete x _) ih
  case insert y _ ih       => exact ih.trans_edit (.insert y _)

theorem align_of_align (h : Edits n b c) (start : Align a b m) : ∃ k ≤ m + n, Align a c k := by
  induction h generalizing m
  case refl => exact ⟨m, le_rfl, start⟩
  case head n _ _ e _ ih =>
    have ⟨k, le, first⟩ := start.trans_edit e
    have ⟨l, le', all⟩ := ih first
    exact ⟨l, by omega, all⟩

theorem align (h : Edits n a b) : ∃ k ≤ n, Align a b k := by
  simpa using h.align_of_align (.refl a)

end Edits

section Distance

theorem levenshtein_le (h : Align a b n) : levenshtein a b ≤ n :=
  Nat.sInf_le (Edits.of_align h)

theorem align_levenshtein (a b : List α) : Align a b (levenshtein a b) := by
  have ⟨n, _, any⟩ := Align.le_max a b
  have fewest : levenshtein a b ∈ { n | Edits n a b } := Nat.sInf_mem ⟨n, Edits.of_align any⟩
  have ⟨k, le, h⟩ := Edits.align fewest
  exact le_antisymm le (levenshtein_le h) ▸ h

theorem levenshtein_comm (a b : List α) : levenshtein a b = levenshtein b a :=
  le_antisymm (levenshtein_le (align_levenshtein b a).symm) (levenshtein_le (align_levenshtein a b).symm)

theorem levenshtein_eq_zero : levenshtein a b = 0 ↔ a = b := by
  constructor
  case mp  => exact fun h => (h ▸ align_levenshtein a b).eq_of_zero
  case mpr => exact fun h => Nat.le_zero.mp (h ▸ levenshtein_le (.refl a))

theorem levenshtein_nil (a : List α) : levenshtein a [] = a.length := by
  have ⟨le, _⟩ := (align_levenshtein a []).length_le
  exact le_antisymm (levenshtein_le (.delete_all a)) (by simpa using le)

theorem levenshtein_reverse (a b : List α) : levenshtein a.reverse b.reverse = levenshtein a b := by
  have back := levenshtein_le (align_levenshtein a.reverse b.reverse).reverse
  rw [List.reverse_reverse, List.reverse_reverse] at back
  exact le_antisymm (levenshtein_le (align_levenshtein a b).reverse) back

theorem levenshtein_cons_cons [DecidableEq α] (x y : α) (a b : List α) :
    levenshtein (x :: a) (y :: b) =
      min (min (levenshtein a b + if x ≠ y then 1 else 0) (levenshtein a (y :: b) + 1)) (levenshtein (x :: a) b + 1) := by
  apply le_antisymm
  · refine le_min (le_min ?_ (levenshtein_le ((align_levenshtein _ _).delete x)))
      (levenshtein_le ((align_levenshtein _ _).insert y))
    split
    case isTrue    => exact levenshtein_le ((align_levenshtein a b).substitute x y)
    case isFalse h => exact levenshtein_le (of_not_not h ▸ (align_levenshtein a b).keep x)
  · have h := align_levenshtein (x :: a) (y :: b)
    generalize levenshtein (x :: a) (y :: b) = n at h
    cases h
    case keep h =>
      have := levenshtein_le h
      simp only [ne_eq, not_true_eq_false, if_false]
      omega
    case substitute h =>
      have := levenshtein_le h
      split
      all_goals omega
    case delete h =>
      have := levenshtein_le h
      omega
    case insert h =>
      have := levenshtein_le h
      omega

-- The distances of two lists' beginnings from those of shorter ones.
theorem levenshtein_concat [DecidableEq α] (x y : α) (a b : List α) :
    levenshtein (a ++ [x]) (b ++ [y]) =
      min (min (levenshtein a b + if x ≠ y then 1 else 0) (levenshtein a (b ++ [y]) + 1))
        (levenshtein (a ++ [x]) b + 1) := by
  rw [← levenshtein_reverse (a ++ [x]), ← levenshtein_reverse a b, ← levenshtein_reverse a (b ++ [y]),
    ← levenshtein_reverse (a ++ [x]) b]
  simp only [List.reverse_append, List.reverse_singleton, List.singleton_append]
  exact levenshtein_cons_cons x y a.reverse b.reverse

end Distance

end EditDistance
