import Mathlib.Algebra.GroupWithZero.Nat
import Kaluta.Logging.Clean

-- What is written and gives a text back, and how many characters are written for a local part.
namespace Kaluta.Logging

-- What is written gives back the text up to a place: characters of the text, and whole markers with their pieces.
inductive Restores (text : List Char) : List Cell → Nat → Prop
  | nil  : Restores text [] 0
  | kept {out : List Cell} {p : Nat} {c : Char} : Restores text out p → text[p]? = some c →
    Restores text (out ++ [.kept p c]) (p + 1)
  | mark {out : List Cell} {m : Marker} {first last : Nat} : Restores text out first → first ≤ last →
    Restores text (out ++ mark m first last) last

-- What a character that is written stands for: itself, or the first of a marker for the whole piece.
def Cell.piece (text : List Char) : Cell → List Char
  | kept _ c            => [c]
  | mark _ first last 0 => (text.drop first).take (last - first)
  | mark _ _ _ _        => []

-- The matched pieces are put back in place of their markers.
def putBack (text : List Char) (out : List Cell) : List Char :=
  out.flatMap (Cell.piece text)

-- The keys in the local part of an address.
def keys (loc : List Char) : List (List Char) :=
  (loc.splitOnP (!isToken ·)).filter fun word => (keyAt [] word).isSome

-- A local part begins in something that was found before: a refresh token, or the domain of an address.
def Overlaps (before rest : List Char) : Prop :=
  (∃ b, before = b ++ "1//".toList ∧ refreshToken b ("1//".toList ++ rest) ≠ none) ∨
  (∃ b, before = b ++ ['@'] ∧ address b ('@' :: rest) ≠ none)

-- The keys in the local part are in all as long as their markers; where nothing is before it, at least as long.
def Aligned (past rest : List Char) : Prop :=
  let loc := past.rtakeWhile isLocal
  let before := past.rdropWhile isLocal
  let markers := Marker.token.text.length * (keys loc).length
  let total := ((keys loc).map List.length).sum
  ¬Overlaps before (loc ++ rest) ∧ (total = markers ∨ (before = [] ∧ markers ≤ total))

-- Each address of the text that is not in the value of a signed parameter is aligned.
def Recoverable (text : List Char) : Prop :=
  ∀ past rest, past ++ rest = text → address past rest ≠ none → ¬InValue text past.length → Aligned past rest

variable {text past rest chunk left : List Char} {c d : Char} {p q i j n : Nat} {out out' x y z : List Cell}
variable {m : Marker} {first last : Nat}

section Restores

theorem prefix_append_cases {α : Type u} {x y z : List α} (h : z <+: x ++ y) :
    z <+: x ∨ ∃ y', y' <+: y ∧ y' ≠ [] ∧ z = x ++ y' := by
  obtain ⟨r, eq⟩ := h
  rcases List.append_eq_append_iff.mp eq with ⟨as, rfl, _⟩ | ⟨cs, rfl, rfl⟩
  · exact .inl (List.prefix_append _ _)
  · by_cases nil : cs = []
    case pos => exact .inl (by simp [nil])
    case neg => exact .inr ⟨cs, List.prefix_append _ _, nil, rfl⟩

theorem mark_take (le : n ≤ m.text.length) : (mark m first last).take n = (List.range n).map (.mark m first last) := by
  rw [mark, ← List.map_take, List.take_range, Nat.min_eq_left le]

theorem mark_concat (m : Marker) (first last : Nat) :
    ∃ init, mark m first last = init ++ [.mark m first last (m.text.length - 1)] := by
  refine ⟨(List.range (m.text.length - 1)).map (.mark m first last), ?_⟩
  have pos : 0 < m.text.length := by cases m <;> decide
  rw [mark, ← List.map_singleton (f := Cell.mark m first last), ← List.map_append, ← List.range_succ,
    Nat.succ_eq_add_one, Nat.sub_add_cancel pos]

theorem restores_nil (h : Restores text [] j) : j = 0 := by
  generalize eq : ([] : List Cell) = all at h
  cases h
  case nil => rfl
  case kept => simp at eq
  case mark _ m first _ _ =>
    obtain ⟨init, concat⟩ := mark_concat m first j
    rw [concat] at eq
    simp at eq

theorem restores_kept (h : Restores text (out ++ [.kept p c]) j) : Restores text out p ∧ j = p + 1 := by
  generalize eq : out ++ [.kept p c] = all at h
  cases h
  case nil => simp at eq
  case kept h _ =>
    obtain ⟨rfl, same⟩ := List.append_inj' eq rfl
    cases same
    exact ⟨h, rfl⟩
  case mark _ m first h _ =>
    obtain ⟨init, concat⟩ := mark_concat m first j
    rw [concat, ← List.append_assoc] at eq
    cases (List.append_inj' eq rfl).right

-- Where what is written ends in a part of a marker, the marker is whole.
theorem restores_mark (h : Restores text (out ++ z) j) (part : z <+: mark m first last) (ne : z ≠ []) :
    z = mark m first last ∧ Restores text out first ∧ j = last := by
  have size : z.length ≤ m.text.length := by
    have := part.length_le
    simpa [mark] using this
  have pos := List.length_pos_of_ne_nil ne
  have split : z = (List.range z.length).map (.mark m first last) := by
    rw [← mark_take size]
    exact List.prefix_iff_eq_take.mp part
  have concat : z = (List.range (z.length - 1)).map (.mark m first last) ++ [.mark m first last (z.length - 1)] := by
    rw [← List.map_singleton (f := Cell.mark m first last), ← List.map_append, ← List.range_succ, Nat.succ_eq_add_one,
      Nat.sub_add_cancel pos]
    exact split
  generalize eq : out ++ z = all at h
  cases h
  case nil => simp [ne] at eq
  case kept =>
    rw [concat, ← List.append_assoc] at eq
    cases (List.append_inj' eq rfl).right
  case mark out' m' first' h _ =>
    have same : Cell.mark m first last (z.length - 1) = .mark m' first' j (m'.text.length - 1) := by
      obtain ⟨init, concat'⟩ := mark_concat m' first' j
      rw [concat, concat', ← List.append_assoc, ← List.append_assoc] at eq
      exact List.singleton_inj.mp (List.append_inj' eq rfl).right
    obtain ⟨rfl, rfl, rfl, _⟩ := Cell.mark.inj same
    have whole : z = mark m first last := by
      have len : m.text.length ≤ z.length := by
        have := (Cell.mark.inj same).right.right.right
        have pos' : 0 < m.text.length := by cases m <;> decide
        omega
      exact part.eq_of_length_le (by simpa [mark] using len)
    rw [whole] at eq
    obtain ⟨rfl, _⟩ := List.append_inj' eq rfl
    exact ⟨whole, h, rfl⟩

-- What is written first gives back the first of the text.
theorem Restores.le_of_prefix (h : Restores text out i) (first : out' <+: out) (h' : Restores text out' j) : j ≤ i := by
  induction h generalizing out' j
  case nil =>
    cases List.prefix_nil.mp first
    exact (restores_nil h').le
  case kept p c h is ih =>
    rcases prefix_append_cases first with first | ⟨z, part, ne, rfl⟩
    · exact (ih first h').trans (Nat.le_succ p)
    · have : z = [.kept p c] := part.eq_of_length (by
        have := part.length_le
        have := List.length_pos_of_ne_nil ne
        simp at *
        omega)
      rw [this] at h'
      exact (restores_kept h').right.le
  case mark h le ih =>
    rcases prefix_append_cases first with first | ⟨z, part, ne, rfl⟩
    · exact (ih first h').trans le
    · exact (restores_mark h' part ne).right.right.le

theorem putBack_mark : putBack text (mark m first last) = (text.drop first).take (last - first) := by
  cases m <;> exact List.append_nil _

theorem Restores.putBack (h : Restores text out n) : putBack text out = text.take n := by
  induction h
  case nil => rfl
  case kept is ih =>
    rw [Logging.putBack, List.flatMap_append, ← Logging.putBack, ih, List.take_add_one, is]
    rfl
  case mark first last _ le ih =>
    rw [Logging.putBack, List.flatMap_append, ← Logging.putBack, ← Logging.putBack, ih, putBack_mark, ← List.take_add,
      Nat.add_sub_cancel' le]

theorem restores_keep (h : Restores text out p) (at' : ∀ k c, chunk[k]? = some c → text[p + k]? = some c) :
    Restores text (out ++ keep p chunk) (p + chunk.length) := by
  induction chunk generalizing p out
  case nil => simpa [keep] using h
  case cons c chunk ih =>
    have one := h.kept (at' 0 c rfl)
    have more := ih one fun k d is => by
      rw [Nat.add_right_comm, Nat.add_assoc]
      exact at' (k + 1) d is
    simpa [keep, Nat.add_right_comm, Nat.add_assoc] using more

end Restores

section Local

-- How a text with a piece behind ends.
theorem rtakeWhile_append_of_pos {p : Char → Bool} {l l' : List Char} (h : ∀ c ∈ l', p c) :
    (l ++ l').rtakeWhile p = l.rtakeWhile p ++ l' := by
  rw [List.rtakeWhile, List.reverse_append, List.takeWhile_append_of_pos (by simpa using h), List.reverse_append,
    List.reverse_reverse, List.rtakeWhile]

theorem rdropWhile_append_of_pos {p : Char → Bool} {l l' : List Char} (h : ∀ c ∈ l', p c) :
    (l ++ l').rdropWhile p = l.rdropWhile p := by
  rw [List.rdropWhile, List.reverse_append, List.dropWhile_append_of_pos (by simpa using h), List.rdropWhile]

end Local

-- How many characters are written for the local characters behind some text.
inductive Counted (before : List Char) : List Char → List Char → Nat → Prop
  | nil {rest : List Char} : Counted before [] rest 0
  | plain {loc rest : List Char} {c : Char} {n : Nat} : Counted before loc (c :: rest) n →
    keyAt (before ++ loc) (c :: rest) = none → Counted before (loc ++ [c]) rest (n + 1)
  | key {loc key rest : List Char} {n : Nat} : Counted before loc (key ++ rest) n →
    startsWord (before ++ loc) → (∀ c ∈ key, isToken c) → key ≠ [] → (∀ c ∈ rest.head?, isToken c = false) →
    keyAt (before ++ loc) (key ++ rest) = some (.token key.length) →
    Counted before (loc ++ key) rest (n + Marker.token.text.length)

section Counted

variable {before loc rest init word : List Char}

-- What is written for some local characters: their number, but for the keys in them.
def Balanced (loc : List Char) (n : Nat) : Prop :=
  n + ((keys loc).map List.length).sum = loc.length + Marker.token.text.length * (keys loc).length

instance : Decidable (Balanced loc n) :=
  inferInstanceAs (Decidable (_ = _))

-- A word begins behind it.
def Apart (init : List Char) : Prop :=
  init = [] ∨ ∃ l c, init = l ++ [c] ∧ isToken c = false

theorem keys_concat (h : isToken c = false) : keys (loc ++ c :: rest) = keys loc ++ keys rest := by
  rw [keys, List.splitOnP_append_cons loc rest (by simpa using h), List.filter_append]
  rfl

theorem keys_apart (h : Apart init) (tokens : ∀ c ∈ word, isToken c) :
    keys (init ++ word) = keys init ++ if (keyAt [] word).isSome then [word] else [] := by
  have single : keys word = if (keyAt [] word).isSome then [word] else [] := by
    rw [keys, List.splitOnP_eq_singleton (by simpa using tokens), List.filter_singleton]
    cases (keyAt [] word).isSome <;> rfl
  have none_ : keys [] = [] := by decide
  rcases h with rfl | ⟨l, c, rfl, other⟩
  · rw [none_, List.nil_append, List.nil_append, single]
  · rw [List.append_assoc, List.singleton_append, keys_concat other, keys_concat other, none_, List.append_nil, single]

theorem startsWord_apart (h : Apart init) (starts : startsWord before) : startsWord (before ++ init) := by
  rcases h with rfl | ⟨l, c, rfl, other⟩
  · rwa [List.append_nil]
  · rw [startsWord, ← List.append_assoc, List.getLast?_concat, Option.all_some, other]
    rfl

-- Whether a word is a key does not depend on what is around it.
theorem keyAt_word (starts : startsWord before) (tokens : ∀ c ∈ word, isToken c)
    (next : ∀ c ∈ rest.head?, isToken c = false) : (keyAt before (word ++ rest)).isSome = (keyAt [] word).isSome := by
  have read {b w r : List Char} (tokens : ∀ c ∈ w, isToken c) (next : ∀ c ∈ r.head?, isToken c = false)
      (h : (keyAt b (w ++ r)).isSome) : keyAt b (w ++ r) = some (.token w.length) := by
    obtain ⟨f, is⟩ := Option.isSome_iff_exists.mp h
    obtain ⟨key, left, eq, rfl, _, _, tokens', next'⟩ := (Option.or_eq_some_iff.mp is).elim accessToken_some
      fun h => apiKey_some h.right
    have run {w r : List Char} (tokens : ∀ c ∈ w, isToken c) (next : ∀ c ∈ r.head?, isToken c = false) :
        (w ++ r).takeWhile isToken = w := by
      rw [List.takeWhile_append_of_pos tokens]
      cases r
      case nil       => simp
      case cons c r  => rw [List.takeWhile_cons_of_neg (by simp [next c rfl]), List.append_nil]
    rw [is, ← run tokens next, eq, run tokens' next']
  rw [Bool.eq_iff_iff]
  constructor
  · intro h
    have alone : keyAt [] (word ++ []) ≠ none := keyAt_of_keyAt (read tokens next h) rfl tokens
    rw [List.append_nil] at alone
    exact Option.isSome_iff_ne_none.mpr alone
  · intro h
    have alone : keyAt [] (word ++ []) = some (.token word.length) :=
      read tokens nofun (by rwa [List.append_nil])
    exact Option.isSome_iff_ne_none.mpr (keyAt_of_keyAt alone starts tokens)

-- Some local characters as far as they are read: the last word may go on, or was found to be a key.
inductive Reading (before : List Char) : List Char → List Char → Nat → Prop
  | plain {init word rest : List Char} {n : Nat} : Apart init → (∀ c ∈ word, isToken c) → Balanced init n →
    (word ≠ [] → keyAt (before ++ init) (word ++ rest) = none) → Reading before (init ++ word) rest (n + word.length)
  | key {init word rest : List Char} {n : Nat} : Apart init → (∀ c ∈ word, isToken c) → Balanced init n →
    (∀ c ∈ rest.head?, isToken c = false) → (keyAt (before ++ init) (word ++ rest)).isSome →
    Reading before (init ++ word) rest (n + Marker.token.text.length)

theorem Reading.balanced (h : Reading before loc rest n) (starts : startsWord before)
    (next : ∀ c ∈ rest.head?, isToken c = false) : Balanced loc n := by
  cases h
  case plain init word n apart tokens balanced none_ =>
    have other : (keyAt [] word).isSome = false := by
      by_cases nil : word = []
      case pos => rw [nil]; rfl
      case neg => rw [← keyAt_word (startsWord_apart apart starts) tokens next, none_ nil]; rfl
    rw [Balanced, keys_apart apart tokens, other, List.length_append]
    rw [Balanced] at balanced
    simp only [Bool.false_eq_true, if_false, List.append_nil]
    omega
  case key init word n apart tokens balanced _ is =>
    rw [keyAt_word (startsWord_apart apart starts) tokens next] at is
    rw [Balanced, keys_apart apart tokens, is, List.length_append]
    rw [Balanced] at balanced
    simp only [if_true, List.map_append, List.sum_append, List.map_singleton, List.sum_singleton, List.length_append,
      List.length_singleton, Nat.mul_add, Nat.mul_one]
    omega

theorem Counted.reading (h : Counted before loc rest n) (starts : startsWord before) : Reading before loc rest n := by
  induction h
  case nil rest =>
    have none_ : Balanced [] 0 := by decide
    exact .plain (.inl rfl) (nofun : ∀ c ∈ [], isToken c) none_ (absurd rfl)
  case plain loc rest c n h none_ ih =>
    by_cases token : isToken c
    case pos =>
      generalize eq : c :: rest = rest' at ih
      cases ih
      case plain init word n apart tokens balanced before_none =>
        subst eq
        have tokens' : ∀ d ∈ word ++ [c], isToken d := by simpa [or_imp, forall_and, token] using tokens
        have longer : Reading before (init ++ (word ++ [c])) rest (n + (word ++ [c]).length) := by
          refine .plain apart tokens' balanced fun _ => ?_
          rw [List.append_assoc, List.singleton_append]
          by_cases nil : word = []
          case pos => simpa [nil] using none_
          case neg => exact before_none nil
        simpa [Nat.add_assoc] using longer
      case key next _ =>
        subst eq
        rw [next c rfl] at token
        cases token
    case neg =>
      have other : isToken c = false := by simpa using token
      have balanced := ih.balanced starts fun d mem => by cases Option.mem_some.mp mem; exact other
      have more : Balanced (loc ++ [c]) (n + 1) := by
        rw [Balanced, keys_concat other, show keys [] = [] by decide, List.append_nil, List.length_append]
        rw [Balanced] at balanced
        simp only [List.length_singleton]
        omega
      have fresh : Reading before (loc ++ [c] ++ []) rest (n + 1 + ([] : List Char).length) :=
        .plain (.inr ⟨loc, c, rfl, other⟩) nofun more (absurd rfl)
      rwa [List.append_nil] at fresh
  case key loc key rest n h starts' tokens ne next is ih =>
    generalize eq : key ++ rest = rest' at ih
    cases ih
    case plain init word n apart tokens' balanced _ =>
      subst eq
      have nil : word = [] := by
        by_contra some_
        rw [← List.append_assoc, startsWord_append_false some_ tokens'] at starts'
        cases starts'
      subst nil
      rw [List.append_nil] at is ⊢
      exact .key apart tokens balanced next (by rw [is]; rfl)
    case key next' _ =>
      subst eq
      rcases key with _ | ⟨c, key⟩
      · exact absurd rfl ne
      · have := next' c rfl
        rw [tokens c List.mem_cons_self] at this
        cases this

end Counted

end Kaluta.Logging
