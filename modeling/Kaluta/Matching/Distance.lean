import Kaluta.Lib.EditDistance
import Kaluta.Matching.Matched

namespace Kaluta.Matching

open Facts (Letters)
open EditDistance

-- The entries of a row behind the first ones: distances of one more word from ever longer beginnings of the list.
theorem nextRow_eq (wa : String) (a front rest : List String) :
    nextRow wa rest (levenshtein (a ++ [wa]) front) (rest.inits.map fun p => levenshtein a (front ++ p)) =
      rest.inits.tail.map fun p => levenshtein (a ++ [wa]) (front ++ p) := by
  induction rest generalizing front
  case nil => rfl
  case cons wb rest ih =>
    have next := ih (front ++ [wb])
    have here := levenshtein_concat wa wb a front
    simp only [List.append_assoc, List.singleton_append] at next
    rw [List.inits_cons, List.map_cons, List.map_map, List.tail_cons, List.map_map, List.append_nil]
    have first : rest.inits = [] :: rest.inits.tail := by cases rest <;> rfl
    rw [first] at next ⊢
    simp only [List.map_cons, Function.comp_apply, nextRow, ← here] at next ⊢
    exact congrArg (_ :: ·) next

theorem row_eq (wa : String) (a b : List String) :
    row b (b.inits.map (levenshtein a)) (wa, a.length) = b.inits.map (levenshtein (a ++ [wa])) := by
  have start : levenshtein (a ++ [wa]) [] = a.length + 1 := by
    rw [levenshtein_nil, List.length_append, List.length_singleton]
  have next := nextRow_eq wa a [] b
  simp only [List.nil_append, start] at next
  have first : b.inits = [] :: b.inits.tail := by cases b <;> rfl
  rw [row, next, first, List.map_cons, start]
  rfl

theorem foldl_row (a rest b : List String) :
    (rest.zipIdx a.length).foldl (row b) (b.inits.map (levenshtein a)) = b.inits.map (levenshtein (a ++ rest)) := by
  induction rest generalizing a
  case nil => simp
  case cons wa rest ih =>
    rw [List.zipIdx_cons, List.foldl_cons, row_eq]
    have next := ih (a ++ [wa])
    simpa using next

-- The first row: from nothing, every word is an insertion.
theorem range_eq (b : List String) : List.range (b.length + 1) = b.inits.map (levenshtein []) := by
  refine List.ext_getElem (by simp) fun j hj _ => ?_
  have le : j ≤ b.length := by simpa [Nat.lt_succ_iff] using hj
  rw [List.getElem_range, List.getElem_map, List.getElem_inits, levenshtein_comm, levenshtein_nil, List.length_take,
    min_eq_left le]

theorem edits_eq_levenshtein (a b : List String) : edits a b = levenshtein a b := by
  have table : a.zipIdx.foldl (row b) (List.range (b.length + 1)) = b.inits.map (levenshtein a) := by
    rw [range_eq]
    exact foldl_row [] a b
  have all : b.inits[b.length]? = some b := by
    rw [List.getElem?_eq_getElem (by simp), List.getElem_inits, List.take_length]
  rw [edits, table, List.getElem?_map, all]
  rfl

section Texts

variable [Letters] (a b : String)

theorem distance_eq_div :
    distance a b = levenshtein (words a) (words b) / max (words a).length (words b).length := by
  rw [distance, edits_eq_levenshtein]
  split
  case isFalse   => rfl
  case isTrue no => rw [no, Nat.cast_zero, div_zero]

theorem distance_eq_zero : distance a b = 0 ↔ words a = words b := by
  rw [distance_eq_div, div_eq_zero_iff, Nat.cast_eq_zero, levenshtein_eq_zero]
  refine ⟨fun h => h.elim id fun no => ?_, .inl⟩
  have empty : max (words a).length (words b).length = 0 := by exact_mod_cast no
  have left : words a = [] := List.length_eq_zero_iff.mp (by omega)
  have right : words b = [] := List.length_eq_zero_iff.mp (by omega)
  rw [left, right]

-- How far two texts are apart: the edits of words from one to the other, over the longer one's length.
theorem distance_eq_levenshtein :
    (∀ v w : List String, edits v w = levenshtein v w) ∧
    distance a b = levenshtein (words a) (words b) / max (words a).length (words b).length ∧
    distance a b = distance b a ∧ (distance a b = 0 ↔ words a = words b) ∧ distance a b ≤ 1 := by
  refine ⟨edits_eq_levenshtein, distance_eq_div a b, ?_, distance_eq_zero a b, (distance_le_one a b).right⟩
  rw [distance_eq_div, distance_eq_div, levenshtein_comm, max_comm]

end Texts

end Kaluta.Matching
