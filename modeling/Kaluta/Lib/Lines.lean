import Mathlib.Data.List.Basic

-- A sequence cut after each delimiter.
namespace Lines

variable {α : Type u} [DecidableEq α] {d : α}

-- The pieces keep their delimiters; the last one may have none.
def splitInclusive (d : α) : List α → List (List α)
  | []      => []
  | a :: as =>
    if a = d then [a] :: splitInclusive d as
    else match splitInclusive d as with
      | []      => [[a]]
      | l :: ls => (a :: l) :: ls

-- A piece that ends with its delimiter.
def Terminated (d : α) (l : List α) : Prop :=
  ∃ init, l = init ++ [d] ∧ d ∉ init

theorem flatten_splitInclusive (as : List α) : (splitInclusive d as).flatten = as := by
  induction as
  case nil          => rfl
  case cons a as ih =>
    unfold splitInclusive
    split
    case isTrue  => simp [ih]
    case isFalse => split <;> simp_all

theorem splitInclusive_cons (h : Terminated d l) (rest : List α) :
    splitInclusive d (l ++ rest) = l :: splitInclusive d rest := by
  obtain ⟨init, rfl, free⟩ := h
  induction init
  case nil => simp [splitInclusive]
  case cons a init ih =>
    rw [List.mem_cons, not_or] at free
    obtain ⟨ne, free⟩ := free
    simp only [List.append_assoc, List.singleton_append] at ih
    simp [splitInclusive, Ne.symm ne, ih free]

theorem splitInclusive_flatten {ls : List (List α)} (h : ∀ l ∈ ls, Terminated d l) (rest : List α) :
    splitInclusive d (ls.flatten ++ rest) = ls ++ splitInclusive d rest := by
  induction ls
  case nil          => rfl
  case cons l ls ih =>
    obtain ⟨head, tail⟩ := List.forall_mem_cons.mp h
    rw [List.flatten_cons, List.append_assoc, splitInclusive_cons head, ih tail, List.cons_append]

omit [DecidableEq α] in
-- What is made of terminated pieces ends with the delimiter.
theorem suffix_flatten {ls : List (List α)} (h : ∀ l ∈ ls, Terminated d l) (nonempty : ls ≠ []) :
    [d] <:+ ls.flatten := by
  obtain ⟨init, same, _⟩ := h _ (List.getLast_mem nonempty)
  rw [← List.dropLast_append_getLast nonempty, List.flatten_append, List.flatten_singleton, same, ← List.append_assoc]
  exact List.suffix_append _ _

-- Pieces of what ends with a delimiter, or is empty, all have theirs.
theorem terminated_of_mem {as : List α} (h : as = [] ∨ as.getLast? = some d) :
    ∀ l ∈ splitInclusive d as, Terminated d l := by
  induction as
  case nil => exact nofun
  case cons a as ih =>
    have ends : as = [] ∨ as.getLast? = some d := by
      cases as
      case nil  => exact .inl rfl
      case cons => exact .inr (by simpa using h)
    unfold splitInclusive
    split
    case isTrue same =>
      rintro l (_ | ⟨_, mem⟩)
      · exact ⟨[], by simp [same], List.not_mem_nil⟩
      · exact ih ends l mem
    case isFalse ne =>
      split
      case _ empty =>
        have : as = [] := by rw [← flatten_splitInclusive (d := d) as, empty, List.flatten_nil]
        simp [this, ne] at h
      case _ l ls cut =>
        have terminated := ih ends
        rw [cut] at terminated
        rintro l' (_ | ⟨_, mem⟩)
        · obtain ⟨init, rfl, free⟩ := terminated l List.mem_cons_self
          exact ⟨a :: init, rfl, by simp [Ne.symm ne, free]⟩
        · exact terminated l' (List.mem_cons_of_mem _ mem)

-- What lacks a last delimiter gets one in its last piece.
theorem splitInclusive_concat {as : List α} (h : as.getLast? ≠ some d) (nonempty : as ≠ []) :
    ∃ ls l, l ≠ [] ∧ splitInclusive d as = ls ++ [l] ∧ splitInclusive d (as ++ [d]) = ls ++ [l ++ [d]] := by
  induction as
  case nil => exact absurd rfl nonempty
  case cons a as ih =>
    cases as
    case nil =>
      have ne : a ≠ d := fun same => h (by simp [same])
      exact ⟨[], [a], List.cons_ne_nil _ _, by simp [splitInclusive, ne], by simp [splitInclusive, ne]⟩
    case cons b bs =>
      obtain ⟨ls, l, full, cut, cut'⟩ := ih (by simpa using h) (List.cons_ne_nil _ _)
      rw [List.cons_append]
      unfold splitInclusive
      rw [cut, cut']
      split
      case isTrue  => exact ⟨[a] :: ls, l, full, rfl, rfl⟩
      case isFalse =>
        cases ls
        case nil  => exact ⟨[], a :: l, List.cons_ne_nil _ _, rfl, rfl⟩
        case cons => exact ⟨_ :: _, l, full, rfl, rfl⟩

end Lines
