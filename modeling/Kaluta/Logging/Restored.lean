import Kaluta.Logging.Restores

-- When putting the matched pieces back gives the text again.
namespace Kaluta.Logging

variable {text past rest chunk left : List Char} {c : Char} {p q j : Nat} {out x z : List Cell} {m : Marker}
variable {first last : Nat}

-- Where the loop is while all that is written gives back the text: in local characters that began behind a character
-- that was kept, in such that began in something found, or behind a parameter.
inductive Region (text past rest : List Char) (out : List Cell) : Prop
  | loc {A B : List Cell} : out = A ++ B → Restores text A (past.rdropWhile isLocal).length →
    (A = [] ∧ past.rdropWhile isLocal = [] ∨ ∃ A' p c, A = A' ++ [.kept p c] ∧ p + 1 = (past.rdropWhile isLocal).length) →
    ¬Overlaps (past.rdropWhile isLocal) (past.rtakeWhile isLocal ++ rest) →
    (∀ B', B' <+: B → B' ≠ [] → ∀ j, Restores text (A ++ B') j → (past.rdropWhile isLocal).length < j) →
    Counted (past.rdropWhile isLocal) (past.rtakeWhile isLocal) rest B.length → Region text past rest out
  | within {C B : List Cell} {m : Marker} {first last : Nat} :
    Overlaps (past.rdropWhile isLocal) (past.rtakeWhile isLocal ++ rest) → out = C ++ mark m first last ++ B →
    Restores text C first → first < (past.rdropWhile isLocal).length → (past.rdropWhile isLocal).length < last →
    Region text past rest out
  | between : (∀ c ∈ rest.head?, isDelimiter c) → Region text past rest out

section Aligned

theorem startsWord_rdropWhile : startsWord (past.rdropWhile isLocal) := by
  cases eq : (past.rdropWhile isLocal).getLast?
  case none => rw [startsWord, eq]; rfl
  case some c =>
    have ne : past.rdropWhile isLocal ≠ [] := by
      intro nil
      rw [nil] at eq
      cases eq
    have other := List.rdropWhile_last_not isLocal past ne
    rw [List.getLast?_eq_some_getLast ne, Option.some_inj] at eq
    rw [startsWord, List.getLast?_eq_some_getLast ne, Option.all_some, eq]
    rw [eq] at other
    have : isToken c = false := by
      by_contra token
      exact other (isLocal_of_isToken (by simpa using token))
    rw [this]
    rfl

-- Taking back as many characters as the local part has gives back the text before it exactly where it is aligned.
theorem Region.restores_iff (h : Region text past ('@' :: rest) out) :
    Restores text (out.rdrop (past.rtakeWhile isLocal).length) (past.rdropWhile isLocal).length ↔
      Aligned past ('@' :: rest) := by
  rw [Aligned]
  cases h
  case between delimiters => exact absurd (delimiters '@' rfl) (by decide)
  case within C B m first last overlaps eq restores lt lt' =>
    refine iff_of_false (fun restored => ?_) fun aligned => aligned.left overlaps
    have part : out.rdrop (past.rtakeWhile isLocal).length <+: C ++ mark m first last ++ B := eq ▸ List.take_prefix _ _
    rcases prefix_append_cases part with part | ⟨B', _, _, same⟩
    · rcases prefix_append_cases part with part | ⟨z, part, ne, same⟩
      · exact absurd (restores.le_of_prefix part restored) (by omega)
      · rw [same] at restored
        exact absurd (restores_mark restored part ne).right.right (by omega)
    · have whole : Restores text (C ++ mark m first last) last := restores.mark (by omega)
      exact absurd (restored.le_of_prefix (same ▸ List.prefix_append _ _) whole) (by omega)
  case loc A B eq restores ends overlaps beyond counted =>
    have balanced := (counted.reading startsWord_rdropWhile).balanced startsWord_rdropWhile
      fun c mem => by cases Option.mem_some.mp mem; decide
    rw [Balanced] at balanced
    have number : ((keys (past.rtakeWhile isLocal)).map List.length).sum =
          Marker.token.text.length * (keys (past.rtakeWhile isLocal)).length ∨
        (past.rdropWhile isLocal = [] ∧ Marker.token.text.length * (keys (past.rtakeWhile isLocal)).length ≤
          ((keys (past.rtakeWhile isLocal)).map List.length).sum) ↔
        B.length = (past.rtakeWhile isLocal).length ∨
          (past.rdropWhile isLocal = [] ∧ B.length ≤ (past.rtakeWhile isLocal).length) :=
      or_congr (by omega) (and_congr_right fun _ => by omega)
    rw [number, and_iff_right overlaps, eq]
    rcases Nat.lt_trichotomy B.length (past.rtakeWhile isLocal).length with lt | same | gt
    · obtain ⟨k, more⟩ := Nat.exists_eq_add_of_lt lt
      rw [more, Nat.add_assoc, List.rdrop_append_length_add]
      rcases ends with ⟨rfl, nil⟩ | ⟨A', p, c, rfl, place⟩
      · rw [nil]
        have none_ : ([] : List Cell).rdrop (k + 1) = [] := List.rdrop_nil _
        rw [none_]
        exact iff_of_true .nil (.inr ⟨rfl, by omega⟩)
      · rw [List.rdrop_concat_succ]
        refine iff_of_false (fun restored => ?_) fun is => ?_
        · have := (restores_kept restores).left.le_of_prefix (List.take_prefix _ _) restored
          omega
        · rcases is with same | ⟨nil, _⟩
          · omega
          · rw [nil] at place
            cases place
    · rw [← same, List.rdrop_append_length]
      exact iff_of_true restores (.inl rfl)
    · rw [List.rdrop_append_of_le_length _ gt.le]
      refine iff_of_false (fun restored => ?_) (by omega)
      have some_ : B.rdrop (past.rtakeWhile isLocal).length ≠ [] := by
        intro nil
        have := congrArg List.length nil
        simp only [List.rdrop, List.length_take, List.length_nil] at this
        omega
      exact absurd (beyond _ (List.take_prefix _ _) some_ _ restored) (Nat.lt_irrefl _)

end Aligned

-- No refresh token begins in the last two characters.
structure Read (past rest : List Char) : Prop where
  one : ∀ b, past = b ++ ['1'] → refreshToken b ('1' :: rest) = none
  two : ∀ b, past = b ++ ['1', '/'] → refreshToken b ('1' :: '/' :: rest) = none

section Read

theorem refreshToken_none_of_starts (h : startsWord past = false) : refreshToken past rest = none := by
  by_contra is
  rw [keyAt_starts (.inr is)] at h
  cases h

theorem refreshToken_none_of_not_prefix (h : ¬"1//".toList <+: rest) : refreshToken past rest = none := by
  rw [refreshToken, if_neg fun is => h is.right.left]

theorem Read.of_word {b word : List Char} (pos : 2 ≤ word.length) (tokens : ∀ c ∈ word, isToken c) :
    Read (b ++ word) rest := by
  rcases List.eq_nil_or_concat word with rfl | ⟨init, d, rfl⟩
  · cases pos
  · rw [List.concat_eq_append] at pos tokens ⊢
    have ne : init ≠ [] := by
      rintro rfl
      exact absurd pos (by simp)
    constructor
    · intro b' eq
      rw [← List.append_assoc] at eq
      obtain ⟨rfl, _⟩ := List.append_inj' eq rfl
      exact refreshToken_none_of_starts (startsWord_append_false ne fun c mem => tokens c (List.mem_append_left _ mem))
    · intro b' eq
      rw [show ['1', '/'] = ['1'] ++ ['/'] from rfl, ← List.append_assoc, ← List.append_assoc] at eq
      obtain ⟨_, same⟩ := List.append_inj' eq rfl
      rw [List.singleton_inj.mp same] at tokens
      exact absurd (tokens '/' (by simp)) (by decide)

theorem two_le_of_dot {domain : List Char} (dot : '.' ∈ domain) (first : domain.head? ≠ some '.') : 2 ≤ domain.length := by
  rcases domain with _ | ⟨c, _ | ⟨d, domain⟩⟩
  · cases dot
  · cases List.mem_singleton.mp dot
    exact absurd rfl first
  · simp

theorem Read.step {f : Found} (h : Read past (chunk ++ left)) (finds : Finds past f chunk left) :
    Read (past ++ chunk) left := by
  cases finds
  case key long tokens _ _ => exact .of_word (by omega) tokens
  case refresh long tokens _ _ =>
    rw [← List.append_assoc]
    exact .of_word (by omega) tokens
  case address _ dot first _ domains _ _ =>
    rw [← List.singleton_append, ← List.append_assoc]
    exact .of_word (two_le_of_dot dot first) fun c mem => isToken_of_isDomain (domains c mem)
  case param next _ =>
    have other : left.head? ≠ some '/' := fun is => absurd (next '/' is) (by decide)
    constructor
    · refine fun b _ => refreshToken_none_of_not_prefix fun ⟨more, eq⟩ => other ?_
      rw [← (List.cons.inj eq).right]
      rfl
    · refine fun b _ => refreshToken_none_of_not_prefix fun ⟨more, eq⟩ => other ?_
      rw [← (List.cons.inj (List.cons.inj eq).right).right]
      rfl
  case plain c _ _ refresh _ =>
    constructor
    · intro b eq
      obtain ⟨rfl, same⟩ := List.append_inj' eq rfl
      cases same
      exact refresh
    · intro b eq
      rw [show ['1', '/'] = ['1'] ++ ['/'] from rfl, ← List.append_assoc] at eq
      obtain ⟨behind, same⟩ := List.append_inj' eq rfl
      cases same
      exact h.one b behind

end Read

-- All that is written gives back the text so far.
structure Good (text past rest : List Char) (out : List Cell) : Prop where
  restores : Restores text out past.length
  region   : Region text past rest out
  aligned  : ∀ past' rest', past' ++ rest' = text → past'.length < past.length → address past' rest' ≠ none →
    ¬InValue text past'.length → Aligned past' rest'

-- Behind an address that is not aligned nothing that is written gives back the text.
structure Bad (text past : List Char) (out : List Cell) (q : Nat) : Prop where
  passed    : q < past.length
  place     : text[q]? = some '@'
  spoiled   : ∀ out', out' <+: out → ∀ j, q < j → ¬Restores text out' j
  unaligned : ¬Recoverable text

section Bad

theorem spoiled_kept (h : ∀ out', out' <+: out → ∀ j, q < j → ¬Restores text out' j) (lt : q < p) :
    ∀ out', out' <+: out ++ [.kept p c] → ∀ j, q < j → ¬Restores text out' j := by
  intro out' part j behind restored
  rcases prefix_append_cases part with part | ⟨z, inner, ne, rfl⟩
  · exact h out' part j behind restored
  · have whole : z = [.kept p c] := by
      refine inner.eq_of_length ?_
      have := inner.length_le
      have := List.length_pos_of_ne_nil ne
      simp at *
      omega
    rw [whole] at restored
    exact h out (List.prefix_refl _) p lt (restores_kept restored).left

theorem spoiled_keep (h : ∀ out', out' <+: out → ∀ j, q < j → ¬Restores text out' j) (lt : q < p) :
    ∀ out', out' <+: out ++ keep p chunk → ∀ j, q < j → ¬Restores text out' j := by
  induction chunk generalizing p out
  case nil => simpa [keep] using h
  case cons c chunk ih => simpa [keep] using ih (spoiled_kept h lt) (lt.trans (Nat.lt_succ_self p))

theorem spoiled_mark (h : ∀ out', out' <+: out → ∀ j, q < j → ¬Restores text out' j) (part : x <+: out)
    (unrestored : ¬Restores text x first ∨ q < first) :
    ∀ out', out' <+: x ++ mark m first last → ∀ j, q < j → ¬Restores text out' j := by
  intro out' part' j behind restored
  rcases prefix_append_cases part' with part' | ⟨z, inner, ne, rfl⟩
  · exact h out' (part'.trans part) j behind restored
  · have before := (restores_mark restored inner ne).right.left
    exact unrestored.elim (· before) fun lt => h x part first lt before

theorem length_local (past : List Char) :
    (past.rdropWhile isLocal).length + (past.rtakeWhile isLocal).length = past.length := by
  rw [← List.length_append, List.rdropWhile_append_rtakeWhile]

-- The local part before an address begins behind each earlier `@`.
theorem lt_of_at (h : past ++ rest = text) (place : text[q]? = some '@') (lt : q < past.length) :
    q < (past.rdropWhile isLocal).length := by
  by_contra ge
  have mem : '@' ∈ past.rtakeWhile isLocal := by
    rw [← h, List.getElem?_append_left lt] at place
    rw [← List.rdropWhile_append_rtakeWhile (p := isLocal) (l := past),
      List.getElem?_append_right (Nat.le_of_not_lt ge)] at place
    exact List.mem_of_getElem? place
  exact absurd (List.mem_rtakeWhile_imp mem) (by decide)

theorem Bad.step {f : Found} (h : Bad text past out q) (whole : past ++ (chunk ++ left) = text)
    (finds : Finds past f chunk left) : Bad text (past ++ chunk) (trace past (chunk ++ left) out f) q where
  passed    := h.passed.trans_le (by simp)
  place     := h.place
  unaligned := h.unaligned
  spoiled   := by
    have same := length_local past
    cases finds
    case key     => exact spoiled_mark h.spoiled (List.prefix_refl _) (.inr h.passed)
    case refresh => exact spoiled_mark h.spoiled (List.prefix_refl _) (.inr h.passed)
    case address =>
      refine spoiled_mark h.spoiled (List.take_prefix _ _) (.inr ?_)
      rw [← same, Nat.add_sub_cancel]
      exact lt_of_at whole h.place h.passed
    case param =>
      exact spoiled_mark (spoiled_keep h.spoiled h.passed) (List.prefix_refl _)
        (.inr (h.passed.trans_le (Nat.le_add_right _ _)))
    case plain => exact spoiled_keep h.spoiled h.passed

end Bad

section Good

-- All addresses up to a place are aligned if those before and the one found are.
theorem Good.aligned_step {f : Found} (h : Good text past (chunk ++ left) out) (whole : past ++ (chunk ++ left) = text)
    (finds : Finds past f chunk left) (found : address past (chunk ++ left) ≠ none → Aligned past (chunk ++ left)) :
    ∀ past' rest', past' ++ rest' = text → past'.length < (past ++ chunk).length → address past' rest' ≠ none →
      ¬InValue text past'.length → Aligned past' rest' := by
  intro past' rest' split lt is outside
  by_cases earlier : past'.length < past.length
  case pos => exact h.aligned past' rest' split earlier is outside
  case neg =>
    rw [List.length_append] at lt
    obtain ⟨before, c, after, eq, same⟩ := split_place (Nat.le_of_not_lt earlier) lt
    have split' : past ++ before ++ c :: (after ++ left) = text := by rw [split_append eq, whole]
    obtain ⟨rfl, rfl⟩ := List.append_inj (split.trans split'.symm) same
    cases address_first is
    have mem : '@' ∈ chunk := by simp [eq]
    cases finds
    case key tokens _ _ => exact absurd (tokens '@' mem) (by decide)
    case refresh tokens _ _ =>
      rcases List.mem_append.mp mem with mem | mem
      · exact absurd mem (by decide)
      · exact absurd (tokens '@' mem) (by decide)
    case plain none_ =>
      rcases before with _ | ⟨b, before⟩
      · cases eq
        rw [List.append_nil] at is
        exact absurd none_ is
      · simp at eq
    case address domain _ _ _ domains _ _ =>
      rcases before with _ | ⟨b, before⟩
      · cases eq
        rw [List.append_nil] at is ⊢
        exact found is
      · cases eq
        exact absurd (domains '@' (by simp)) (by decide)
    case param d name value mark names _ _ _ param =>
      have ne : before ≠ [] := by
        rintro rfl
        cases eq
        rcases mark with mark | mark <;> cases mark
      have shown := behind_name eq ne (fun mem => absurd (names '@' mem) (by decide)) (by decide)
      refine absurd ⟨past.length, name.length + 2, value.length, ?_, ?_, ?_⟩ outside
      · rw [drop_place whole]
        exact param
      · rw [List.length_append]
        omega
      · have := congrArg List.length eq
        simp only [List.length_append, List.length_cons] at this ⊢
        omega

theorem overlaps_append :
    Overlaps (past.rdropWhile isLocal) (past.rtakeWhile isLocal ++ chunk ++ left) =
      Overlaps (past.rdropWhile isLocal) (past.rtakeWhile isLocal ++ (chunk ++ left)) := by
  rw [List.append_assoc]

-- Local characters stay where the ones before them are.
theorem Region.local (h : Region text past (chunk ++ left) out) (ne : chunk ≠ []) (locals : ∀ c ∈ chunk, isLocal c)
    (beyond : ∀ z', z' <+: z → z' ≠ [] → ∀ j, Restores text (out ++ z') j → past.length < j)
    (counted : ∀ before loc n, before ++ loc = past → Counted before loc (chunk ++ left) n →
      Counted before (loc ++ chunk) left (n + z.length)) : Region text (past ++ chunk) left (out ++ z) := by
  have before := rdropWhile_append_of_pos (l := past) locals
  have loc := rtakeWhile_append_of_pos (l := past) locals
  cases h
  case loc A B eq restores ends overlaps behind is =>
    subst eq
    refine .loc (List.append_assoc A B z) (before ▸ restores) (before ▸ ends) ?_ ?_ ?_
    · rw [before, loc, overlaps_append]
      exact overlaps
    · rw [before]
      intro B' part some_ j restored
      rcases prefix_append_cases part with part | ⟨z', inner, ne', rfl⟩
      · exact behind B' part some_ j restored
      · rw [← List.append_assoc] at restored
        have := beyond z' inner ne' j restored
        have := length_local past
        omega
    · rw [before, loc, List.length_append]
      exact counted _ _ _ List.rdropWhile_append_rtakeWhile is
  case within C B m first last overlaps eq restores lt lt' =>
    subst eq
    rw [List.append_assoc]
    refine .within ?_ rfl restores (before ▸ lt) (before ▸ lt')
    rw [before, loc, overlaps_append]
    exact overlaps
  case between delimiters =>
    obtain ⟨c, chunk, rfl⟩ := List.exists_cons_of_ne_nil ne
    have delimiter := delimiters c rfl
    rw [not_isDelimiter_of_isLocal (locals c List.mem_cons_self)] at delimiter
    cases delimiter

theorem not_isLocal_slash : isLocal '/' = false := by
  decide

theorem not_isLocal_at : isLocal '@' = false := by
  decide

-- Local characters behind one that is not local.
theorem rdropWhile_concat_append (other : isLocal c = false) (locals : ∀ c ∈ chunk, isLocal c) :
    (past ++ [c] ++ chunk).rdropWhile isLocal = past ++ [c] := by
  rw [rdropWhile_append_of_pos locals, List.rdropWhile_concat_neg _ _ _ (by simp [other])]

theorem rtakeWhile_concat_append (other : isLocal c = false) (locals : ∀ c ∈ chunk, isLocal c) :
    (past ++ [c] ++ chunk).rtakeWhile isLocal = chunk := by
  rw [rtakeWhile_append_of_pos locals, List.rtakeWhile_concat_neg _ _ _ (by simp [other]), List.nil_append]

theorem Region.refresh (restores : Restores text out past.length) (long : 20 ≤ chunk.length)
    (tokens : ∀ c ∈ chunk, isToken c) (is : refreshToken past ("1//".toList ++ (chunk ++ left)) ≠ none) :
    Region text (past ++ ("1//".toList ++ chunk)) left
      (out ++ mark .token past.length (past.length + (3 + chunk.length))) := by
  have locals : ∀ c ∈ chunk, isLocal c := fun c mem => isLocal_of_isToken (tokens c mem)
  have split : past ++ ("1//".toList ++ chunk) = past ++ ['1', '/'] ++ ['/'] ++ chunk := by simp
  have before : (past ++ ("1//".toList ++ chunk)).rdropWhile isLocal = past ++ "1//".toList := by
    rw [split, rdropWhile_concat_append not_isLocal_slash locals]
    simp
  have loc : (past ++ ("1//".toList ++ chunk)).rtakeWhile isLocal = chunk := by
    rw [split, rtakeWhile_concat_append not_isLocal_slash locals]
  refine .within ?_ (List.append_nil _).symm restores ?_ ?_
  · rw [before, loc]
    exact .inl ⟨past, rfl, is⟩
  · rw [before]
    simp
  · rw [before]
    simp
    omega

theorem Region.address (restores : Restores text out (past.rdropWhile isLocal).length) (ne : chunk ≠ [])
    (domains : ∀ c ∈ chunk, isDomain c) (is : address past ('@' :: (chunk ++ left)) ≠ none) :
    Region text (past ++ '@' :: chunk) left
      (out ++ mark .email (past.rdropWhile isLocal).length (past.length + (1 + chunk.length))) := by
  have locals : ∀ c ∈ chunk, isLocal c := fun c mem => isLocal_of_isToken (isToken_of_isDomain (domains c mem))
  have split : past ++ '@' :: chunk = past ++ ['@'] ++ chunk := by simp
  have pos := List.length_pos_of_ne_nil ne
  have same := length_local past
  refine .within ?_ (List.append_nil _).symm restores ?_ ?_
  · rw [split, rdropWhile_concat_append not_isLocal_at locals, rtakeWhile_concat_append not_isLocal_at locals]
    exact .inr ⟨past, rfl, is⟩
  · rw [split, rdropWhile_concat_append not_isLocal_at locals, List.length_append, List.length_singleton]
    omega
  · rw [split, rdropWhile_concat_append not_isLocal_at locals, List.length_append, List.length_singleton]
    omega

-- A character that is not local, and nothing found: another local part may begin.
theorem Region.plain (restores : Restores text out past.length) (read : Read past (c :: left))
    (is : text[past.length]? = some c) (other : isLocal c = false) (none_ : Logging.address past (c :: left) = none) :
    Region text (past ++ [c]) left (out ++ [.kept past.length c]) := by
  have before : (past ++ [c]).rdropWhile isLocal = past ++ [c] := List.rdropWhile_concat_neg _ _ _ (by simp [other])
  have loc : (past ++ [c]).rtakeWhile isLocal = [] := List.rtakeWhile_concat_neg _ _ _ (by simp [other])
  have size : (past ++ [c]).length = past.length + 1 := by simp
  refine .loc (List.append_nil _).symm ?_ (.inr ⟨out, past.length, c, rfl, ?_⟩) ?_ ?_ ?_
  · rw [before, size]
    exact restores.kept is
  · rw [before, size]
  · rw [before, loc, List.nil_append]
    rintro (⟨b, eq, begins⟩ | ⟨b, eq, begins⟩)
    · rw [show "1//".toList = ['1', '/'] ++ ['/'] from rfl, ← List.append_assoc] at eq
      obtain ⟨rfl, same⟩ := List.append_inj' eq rfl
      cases same
      exact begins (read.two b rfl)
    · obtain ⟨rfl, same⟩ := List.append_inj' eq rfl
      cases same
      exact begins none_
  · intro B' part some_
    exact absurd (List.prefix_nil.mp part) some_
  · rw [loc]
    exact .nil

-- Each thing found but an address that is not aligned leaves what is written giving back the text.
theorem Good.step {f : Found} (h : Good text past (chunk ++ left) out) (read : Read past (chunk ++ left))
    (whole : past ++ (chunk ++ left) = text) (finds : Finds past f chunk left)
    (found : address past (chunk ++ left) ≠ none → Aligned past (chunk ++ left)) :
    Good text (past ++ chunk) left (trace past (chunk ++ left) out f) := by
  have aligned := h.aligned_step whole finds found
  have size : (past ++ chunk).length = past.length + chunk.length := List.length_append
  have mark_beyond {m : Marker} {last : Nat} (lt : past.length < last) :
      ∀ z', z' <+: mark m past.length last → z' ≠ [] → ∀ j, Restores text (out ++ z') j → past.length < j :=
    fun z' part ne j restored => (restores_mark restored part ne).right.right ▸ lt
  cases finds
  case key starts long tokens next is =>
    have locals : ∀ c ∈ chunk, isLocal c := fun c mem => isLocal_of_isToken (tokens c mem)
    have ne := List.ne_nil_of_length_pos (show 0 < chunk.length by omega)
    refine ⟨?_, h.region.local ne locals (mark_beyond (by omega)) ?_, aligned⟩
    · rw [size]
      exact h.restores.mark (Nat.le_add_right _ _)
    · rintro before loc n rfl counted
      rw [show (mark .token (before ++ loc).length ((before ++ loc).length + chunk.length)).length =
        Marker.token.text.length by simp [mark]]
      exact counted.key starts tokens ne next is
  case refresh run long tokens _ is =>
    refine ⟨?_, .refresh h.restores long tokens (by rw [is]; rintro ⟨⟩), aligned⟩
    rw [size, List.length_append]
    exact h.restores.mark (Nat.le_add_right _ _)
  case address domain _ dot _ _ domains _ is =>
    have place : past.length - (past.rtakeWhile isLocal).length = (past.rdropWhile isLocal).length := by
      have := length_local past
      omega
    have restored := h.region.restores_iff.mpr (found (by rw [List.cons_append, is]; rintro ⟨⟩))
    have ne : domain ≠ [] := List.ne_nil_of_mem dot
    refine ⟨?_, ?_, aligned⟩
    · rw [trace, place, size, List.length_cons, Nat.add_comm domain.length]
      refine restored.mark ?_
      have := length_local past
      omega
    · rw [trace, place]
      exact .address restored ne domains (by rw [is]; rintro ⟨⟩)
  case param c name value mark' names known kept next is =>
    have eq : c :: name ++ '=' :: value ++ left = (c :: name ++ ['=']) ++ (value ++ left) := by simp
    have shown : (c :: name ++ '=' :: value ++ left).take (name.length + 2) = c :: name ++ ['='] := by
      rw [eq, List.take_left' (by simp)]
    have len : (c :: name ++ ['=']).length = name.length + 2 := by simp
    have places (k : Nat) (d : Char) (is : (c :: name ++ ['='])[k]? = some d) : text[past.length + k]? = some d := by
      rw [← whole, eq, List.getElem?_append_right (Nat.le_add_right _ _), Nat.add_sub_cancel_left]
      exact List.getElem?_append_left (List.getElem?_eq_some_iff.mp is).choose ▸ is
    have restored := restores_keep h.restores places
    refine ⟨?_, .between next, aligned⟩
    rw [trace, shown, size]
    rw [len] at restored
    have all : past.length + (c :: name ++ '=' :: value).length = past.length + (name.length + 2) + value.length := by
      simp
      omega
    rw [all, ← Nat.add_assoc]
    exact restored.mark (Nat.le_add_right _ _)
  case plain c keyless _ _ none_ =>
    have is : text[past.length]? = some c := getElem?_place whole
    rw [trace]
    refine ⟨?_, ?_, aligned⟩
    · rw [size]
      exact h.restores.kept is
    · by_cases kind : isLocal c
      case neg => exact .plain h.restores read is (by simpa using kind) none_
      case pos =>
        refine h.region.local (List.cons_ne_nil _ _) (by simpa using kind) ?_ ?_
        · intro z' part ne j restored
          have whole : z' = [.kept past.length c] := part.eq_of_length (by
            have := part.length_le
            have := List.length_pos_of_ne_nil ne
            simp [keep] at *
            omega)
          rw [whole] at restored
          exact (restores_kept restored).right ▸ Nat.lt_succ_self _
        · rintro before loc n rfl counted
          exact counted.plain keyless

end Good

section Restored

-- What holds all along the loop: what is written gives back the text, or did so up to an address not aligned.
structure State (text past rest : List Char) (out : List Cell) : Prop where
  written : Written text past rest out
  read    : Read past rest
  back    : Good text past rest out ∨ ∃ q, Bad text past out q

theorem State.initial (text : List Char) : State text [] text [] where
  written := ⟨rfl, nofun, ⟨nofun, nofun, .nil, nofun, nofun, fun _ => rfl⟩⟩
  read    := ⟨fun b eq => by simp at eq, fun b eq => by simp at eq⟩
  back    := by
    refine .inl ⟨.nil, .loc rfl .nil (.inl ⟨rfl, rfl⟩) ?_ ?_ .nil, nofun⟩
    · rintro (⟨b, eq, _⟩ | ⟨b, eq, _⟩)
      · simp at eq
      · simp at eq
    · exact fun B' part some_ => absurd (List.prefix_nil.mp part) some_

-- An address that is not aligned takes back too much or too little.
theorem Good.bad {f : Found} (h : Good text past (chunk ++ left) out) (whole : past ++ (chunk ++ left) = text)
    (outside : ¬InValue text past.length) (finds : Finds past f chunk left)
    (is : Logging.address past (chunk ++ left) ≠ none) (unaligned : ¬Aligned past (chunk ++ left)) :
    Bad text (past ++ chunk) (trace past (chunk ++ left) out f) past.length := by
  have none_recoverable : ¬Recoverable text := fun recoverable => unaligned (recoverable past _ whole is outside)
  have within (out' : List Cell) (first : out' <+: out) (j : Nat) (lt : past.length < j) : ¬Restores text out' j :=
    fun restored => absurd (h.restores.le_of_prefix first restored) (Nat.not_le_of_lt lt)
  have ne := finds.ne_nil
  have lt : past.length < (past ++ chunk).length := by
    have := List.length_pos_of_ne_nil ne
    rw [List.length_append]
    omega
  cases finds
  case address domain _ _ _ _ _ _ _ =>
    refine ⟨lt, getElem?_place whole, ?_, none_recoverable⟩
    refine spoiled_mark within (List.take_prefix _ _) (.inl fun restored => unaligned ?_)
    have place : past.length - (past.rtakeWhile isLocal).length = (past.rdropWhile isLocal).length := by
      have := length_local past
      omega
    rw [place] at restored
    exact h.region.restores_iff.mp restored
  case key tokens _ _ =>
    obtain ⟨c, chunk, rfl⟩ := List.exists_cons_of_ne_nil ne
    cases address_first is
    exact absurd (tokens '@' List.mem_cons_self) (by decide)
  case refresh    => cases address_first is
  case param mark _ _ _ _ _ =>
    cases address_first is
    rcases mark with mark | mark <;> cases mark
  case plain none_ => exact absurd none_ is

theorem State.step {out : List Cell} (h : State text past (chunk ++ left) out)
    (finds : Finds past (found past (chunk ++ left)) chunk left) :
    State text (past ++ chunk) left (trace past (chunk ++ left) out (found past (chunk ++ left))) where
  written := h.written.step finds
  read    := h.read.step finds
  back    := by
    have whole := h.written.whole
    rcases h.back with good | ⟨q, bad⟩
    · by_cases aligned : address past (chunk ++ left) ≠ none → Aligned past (chunk ++ left)
      case pos => exact .inl (good.step h.read whole finds aligned)
      case neg =>
        obtain ⟨is, unaligned⟩ := Classical.not_imp.mp aligned
        exact .inr ⟨past.length, good.bad whole h.written.closed.not_inValue finds is unaligned⟩
    · exact .inr ⟨q, bad.step whole finds⟩

-- No secret is left of a text, and what is written gives the text back exactly where it is recoverable.
theorem scrub_clean_restores_iff (text : List Char) :
    (traced text).map Cell.char = scrubbed text ∧ Clean text ∧
      (Restores text (traced text) text.length ↔ Recoverable text) ∧
      (Recoverable text → putBack text (traced text) = text) := by
  have iff : Restores text (traced text) text.length ↔ Recoverable text := by
    have last : State text text [] (traced text) :=
      scan_invariant (fun _ _ _ _ => State.step) le_rfl (State.initial text)
    rcases last.back with good | ⟨q, bad⟩
    · refine iff_of_true good.restores fun past rest split is outside => ?_
      refine good.aligned past rest split ?_ is outside
      have ne : rest ≠ [] := by
        rintro rfl
        exact is rfl
      have := List.length_pos_of_ne_nil ne
      rw [← split, List.length_append]
      omega
    · exact iff_of_false (bad.spoiled _ (List.prefix_refl _) _ bad.passed) bad.unaligned
  refine ⟨map_char_traced text, clean text, iff, fun recoverable => ?_⟩
  rw [(iff.mpr recoverable).putBack, List.take_length]

-- A key of eight characters before an `@`: the marker has seven, and the blank before the address goes too.
theorem long_key_takes_blank :
    let text := "ab am_12345@x.com".toList
    scrubbed text = "ab<email>".toList ∧ found (text.take 2) (text.drop 2) = .plain ∧ .kept 2 ' ' ∉ traced text ∧
      ¬Restores text (traced text) text.length := by
  have out : traced "ab am_12345@x.com".toList = [.kept 0 'a', .kept 1 'b'] ++ mark .email 3 17 := by decide
  refine ⟨by decide, by decide, by decide, fun restored => ?_⟩
  rw [out] at restored
  have ⟨_, before, _⟩ := restores_mark restored (List.prefix_refl _) (by decide)
  have before : Restores _ ([.kept 0 'a'] ++ [.kept 1 'b']) 3 := before
  cases (restores_kept before).right

end Restored

end Kaluta.Logging
