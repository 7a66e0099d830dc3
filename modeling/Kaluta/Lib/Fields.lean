import Mathlib.Data.List.Basic
import Mathlib.Data.List.Induction

-- Texts put together with a separator between them, and what can be read back of them.
namespace Separated

variable {α : Type*} {sep : α} {x x' a b r r' : List α} {fields fields' : List (List α)}

-- A text, and further ones, each after a separator.
def joined (sep : α) (x : List α) (fields : List (List α)) : List α :=
  x ++ fields.flatMap (sep :: ·)

theorem joined_cons : joined sep x (a :: fields) = x ++ sep :: joined sep a fields := by
  rw [joined, joined, List.flatMap_cons, List.cons_append]

theorem joined_concat : joined sep x (fields ++ [a]) = joined sep x fields ++ sep :: a := by
  rw [joined, joined, List.flatMap_append, List.flatMap_singleton, List.append_assoc]

-- What is before the first separator.
theorem cut_left (ha : sep ∉ a) (hb : sep ∉ b) (h : a ++ sep :: r = b ++ sep :: r') : a = b ∧ r = r' := by
  induction a generalizing b
  case nil =>
    cases b
    case nil      => exact ⟨rfl, (List.cons.inj h).right⟩
    case cons c b => exact absurd ((List.cons.inj h).left ▸ List.mem_cons_self) hb
  case cons c a ih =>
    cases b
    case nil       => exact absurd ((List.cons.inj h).left ▸ List.mem_cons_self) ha
    case cons c' b =>
      have ⟨first, rest⟩ := List.cons.inj h
      have ⟨same, more⟩ := ih (List.not_mem_of_not_mem_cons ha) (List.not_mem_of_not_mem_cons hb) rest
      exact ⟨first ▸ same ▸ rfl, more⟩

-- What is after the last separator.
theorem cut_right (ha : sep ∉ a) (hb : sep ∉ b) (h : r ++ sep :: a = r' ++ sep :: b) : r = r' ∧ a = b := by
  have back {r a : List α} : (r ++ sep :: a).reverse = a.reverse ++ sep :: r.reverse := by
    rw [List.reverse_append, List.reverse_cons, List.append_assoc, List.singleton_append]
  have turned := congrArg List.reverse h
  rw [back, back] at turned
  have ⟨last, front⟩ := cut_left (List.mem_reverse.not.mpr ha) (List.mem_reverse.not.mpr hb) turned
  exact ⟨List.reverse_inj.mp front, List.reverse_inj.mp last⟩

-- The first text may be any, where the number of the others is known and none of them has a separator.
theorem joined_inj (h : joined sep x fields = joined sep x' fields') (length : fields.length = fields'.length)
    (free : ∀ f ∈ fields, sep ∉ f) (free' : ∀ f ∈ fields', sep ∉ f) : x = x' ∧ fields = fields' := by
  induction fields using List.reverseRecOn generalizing fields'
  case nil =>
    obtain rfl := List.eq_nil_of_length_eq_zero length.symm
    rw [joined, joined, List.flatMap_nil, List.append_nil, List.append_nil] at h
    exact ⟨h, rfl⟩
  case append_singleton fields a ih =>
    rcases List.eq_nil_or_concat fields' with rfl | ⟨fields', b, rfl⟩
    case inl => simp at length
    case inr =>
      rw [List.concat_eq_append] at *
      rw [joined_concat, joined_concat] at h
      have last : a ∈ fields ++ [a] := List.mem_append_right _ List.mem_cons_self
      have last' : b ∈ fields' ++ [b] := List.mem_append_right _ List.mem_cons_self
      have ⟨front, same⟩ := cut_right (free a last) (free' b last') h
      have ⟨first, rest⟩ := ih front (by simpa using length) (fun f hf => free f (List.mem_append_left _ hf))
        (fun f hf => free' f (List.mem_append_left _ hf))
      exact ⟨first, by rw [rest, same]⟩

section Words

variable {p : α → Bool} {words : List (List α)} {word x : List α}

theorem visible_of_mem_splitOnP (h : word ∈ x.splitOnP p) : ∀ c ∈ word, p c = false := by
  induction x generalizing word
  case nil =>
    cases List.mem_singleton.mp h
    exact nofun
  case cons c cs ih =>
    rw [List.splitOnP_cons_eq_if_modifyHead] at h
    split at h
    case isTrue =>
      rcases List.mem_cons.mp h with rfl | h
      case inl => exact nofun
      case inr => exact ih h
    case isFalse visible =>
      have ⟨first, rest, eq⟩ := List.exists_cons_of_ne_nil (List.splitOnP_ne_nil p cs)
      rw [eq, List.modifyHead_cons] at h
      rcases List.mem_cons.mp h with rfl | h
      case inl => exact List.forall_mem_cons.mpr ⟨eq_false_of_ne_true visible, ih (eq ▸ List.mem_cons_self)⟩
      case inr => exact ih (eq ▸ List.mem_cons_of_mem _ h)

-- Words put together begin with one's first character…
theorem head?_intercalate (h : ∀ word ∈ words, word ≠ [] ∧ ∀ c ∈ word, p c = false) :
    ∀ c ∈ (x.intercalate words).head?, p c = false := by
  cases words
  case nil => exact nofun
  case cons word words =>
    have ⟨ne, visible⟩ := h word List.mem_cons_self
    have ⟨rest, eq⟩ : ∃ rest, x.intercalate (word :: words) = word ++ rest := by
      cases words
      case nil  => exact ⟨[], by rw [List.intercalate_singleton, List.append_nil]⟩
      case cons => exact ⟨_, by rw [List.intercalate_cons_cons, List.append_assoc]⟩
    intro c hc
    rw [eq, List.head?_append_of_ne_nil _ ne] at hc
    exact visible c (List.mem_of_mem_head? hc)

-- …and end with one's last,
theorem getLast?_intercalate (h : ∀ word ∈ words, word ≠ [] ∧ ∀ c ∈ word, p c = false) :
    ∀ c ∈ (x.intercalate words).getLast?, p c = false := by
  induction words
  case nil => exact nofun
  case cons word words ih =>
    cases words
    case nil =>
      intro c hc
      rw [List.intercalate_singleton] at hc
      exact (h word List.mem_cons_self).right c (List.mem_of_getLast? hc)
    case cons word' words =>
      have ⟨ne, _⟩ := h word' (List.mem_cons_of_mem _ List.mem_cons_self)
      have rest_ne : x.intercalate (word' :: words) ≠ [] := by
        cases words
        case nil  => rwa [List.intercalate_singleton]
        case cons => rw [List.intercalate_cons_cons]; simp [ne]
      intro c hc
      rw [List.intercalate_cons_cons, List.getLast?_append_of_ne_nil _ rest_ne] at hc
      exact ih (fun word mem => h word (List.mem_cons_of_mem _ mem)) c hc

-- …and are the words that can be told apart again.
theorem words_intercalate [DecidableEq α] (hsep : p sep = true) (h : ∀ word ∈ words, word ≠ [] ∧ ∀ c ∈ word, p c = false) :
    (([sep].intercalate words).splitOnP p).filter (· ≠ []) = words := by
  induction words
  case nil => simp
  case cons word words ih =>
    have ⟨⟨ne, visible⟩, rest⟩ := List.forall_mem_cons.mp h
    cases words
    case nil =>
      rw [List.intercalate_singleton, List.splitOnP_eq_singleton visible]
      simp [ne]
    case cons word' words =>
      rw [List.intercalate_cons_cons, List.append_assoc, List.singleton_append,
        List.splitOnP_append_cons_of_forall_mem visible _ hsep, List.filter_cons_of_pos (by simp [ne]), ih rest]

end Words

end Separated
