import Kaluta.Logging.Found
import Mathlib.Data.List.Chain
import Mathlib.Data.List.Find
import Mathlib.Data.List.Range

-- No secret is left in what is made of a text.
namespace Kaluta.Logging

-- The places of the value of a signed query parameter.
def InValue (text : List Char) (p : Nat) : Prop :=
  ∃ q shown value, signedParam (text.drop q) = some (.param shown value) ∧ q + shown ≤ p ∧ p < q + shown + value

-- Nothing but plain text at a place.
structure Plain (text : List Char) (p : Nat) : Prop where
  key     : keyAt (text.take p) (text.drop p) = none
  refresh : refreshToken (text.take p) (text.drop p) = none
  address : address (text.take p) (text.drop p) = none
  value   : ¬InValue text p

-- What the log is kept free of.
structure Clean (text : List Char) : Prop where
  addresses : ∀ past rest, past ++ rest = scrubbed text → address past rest = none
  keys      : ∀ past rest, past ++ rest = scrubbed text → keyAt past rest = none ∧ refreshToken past rest = none
  values    : ∀ p c, .kept p c ∈ traced text → text[p]? = some c ∧ ¬InValue text p

variable {text past rest chunk left name value cs : List Char} {c d : Char} {p q n : Nat}

section Places

theorem getElem?_place (h : past ++ c :: rest = text) : text[past.length]? = some c := by
  rw [← h, List.getElem?_append_right le_rfl, Nat.sub_self]
  rfl

theorem take_place (h : past ++ rest = text) : text.take past.length = past := by
  rw [← h, List.take_left' rfl]

theorem drop_place (h : past ++ rest = text) : text.drop past.length = rest := by
  rw [← h, List.drop_left' rfl]

-- Which characters something that is found begins with.
theorem signedParam_first (h : signedParam (c :: rest) ≠ none) : c = '?' ∨ c = '&' := by
  obtain ⟨f, is⟩ := Option.ne_none_iff_exists'.mp h
  obtain ⟨d, _, _, _, eq, _, mark, _⟩ := signedParam_some is
  cases eq
  exact mark

theorem address_first (h : address past (c :: rest) ≠ none) : c = '@' := by
  obtain ⟨f, is⟩ := Option.ne_none_iff_exists'.mp h
  obtain ⟨_, _, eq, _⟩ := address_some is
  cases eq
  rfl

def FIRSTS : List Char :=
  ['y', 'a', 'p', '1']

theorem keyAt_starts (h : keyAt past rest ≠ none ∨ refreshToken past rest ≠ none) : startsWord past := by
  rcases h with h | h
  · obtain ⟨f, is⟩ := Option.ne_none_iff_exists'.mp h
    obtain ⟨_, _, _, _, starts, _⟩ := (Option.or_eq_some_iff.mp is).elim accessToken_some fun h => apiKey_some h.right
    exact starts
  · obtain ⟨f, is⟩ := Option.ne_none_iff_exists'.mp h
    obtain ⟨_, _, _, _, starts, _⟩ := refreshToken_some is
    exact starts

-- Which two characters a key or token begins with.
theorem keyAt_prefix (h : keyAt past rest ≠ none ∨ refreshToken past rest ≠ none) :
    ∃ start ∈ ["ya".toList, "am".toList, "pr".toList, "1/".toList], start <+: rest := by
  rcases h with h | h
  · obtain ⟨f, is⟩ := Option.ne_none_iff_exists'.mp h
    rcases Option.or_eq_some_iff.mp is with is | ⟨_, is⟩
    · rw [accessToken] at is
      split at is
      case isFalse => cases is
      case isTrue starts => exact ⟨"ya".toList, by decide, (by decide : "ya".toList <+: "ya29.".toList).trans starts.right⟩
    · rw [apiKey] at is
      split at is
      case isFalse => cases is
      case isTrue =>
        obtain ⟨start, is, _⟩ := Option.bind_eq_some_iff.mp is
        have first : start.toList <+: rest := List.isPrefixOf_iff_prefix.mp (by simpa using List.find?_some is)
        have known := List.mem_of_find?_eq_some is
        rcases List.mem_cons.mp known with rfl | known
        · exact ⟨"am".toList, by decide, (by decide : "am".toList <+: "am_".toList).trans first⟩
        · cases List.mem_singleton.mp known
          exact ⟨"pr".toList, by decide, (by decide : "pr".toList <+: "prim_".toList).trans first⟩
  · obtain ⟨f, is⟩ := Option.ne_none_iff_exists'.mp h
    rw [refreshToken] at is
    split at is
    case isFalse => cases is
    case isTrue starts => exact ⟨"1/".toList, by decide, (by decide : "1/".toList <+: "1//".toList).trans starts.right.left⟩

theorem keyAt_first (h : keyAt past (c :: rest) ≠ none ∨ refreshToken past (c :: rest) ≠ none) : c ∈ FIRSTS := by
  obtain ⟨start, known, more, eq⟩ := keyAt_prefix h
  have first := List.all_eq_true.mp (by decide : ["ya".toList, "am".toList, "pr".toList, "1/".toList].all fun start =>
    start.head?.any FIRSTS.contains) start known
  obtain ⟨d, head, mem⟩ := (Option.any_eq_true _ _).mp first
  have : (start ++ more).head? = some d := by
    rw [List.head?_append, head]
    rfl
  rw [eq] at this
  cases this
  exact List.contains_iff_mem.mp mem

end Places

section Values

-- Every parameter that begins before a place has its value end by there.
def Closed (text : List Char) (i : Nat) : Prop :=
  ∀ q < i, ∀ shown value, signedParam (text.drop q) = some (.param shown value) → q + shown + value ≤ i

theorem Closed.not_inValue (h : Closed text p) : ¬InValue text p := by
  rintro ⟨q, shown, value, is, le, lt⟩
  have shown_pos : 0 < shown := by
    cases eq : text.drop q
    case nil => rw [eq] at is; cases is
    case cons =>
      rw [eq] at is
      obtain ⟨_, name, _, _, _, is, _⟩ := signedParam_some is
      cases is
      omega
  have := h q (by omega) shown value is
  omega

-- A place in a piece of the text is behind a part of that piece.
theorem split_place (le : past.length ≤ q) (lt : q < past.length + chunk.length) :
    ∃ before c after, chunk = before ++ c :: after ∧ q = (past ++ before).length := by
  have within : q - past.length < chunk.length := by omega
  refine ⟨chunk.take (q - past.length), chunk[q - past.length], chunk.drop (q - past.length + 1), ?_, ?_⟩
  · rw [List.getElem_cons_drop, List.take_append_drop]
  · rw [List.length_append, List.length_take]
    omega

theorem split_append {before after : List Char} (eq : chunk = before ++ c :: after) :
    past ++ before ++ c :: (after ++ left) = past ++ (chunk ++ left) := by
  simp [eq]

-- Where something other than the delimiters reaches to.
theorem length_le_of_delimiter {u after left' : List Char} (eq : u ++ left' = after ++ left)
    (kept : ∀ c ∈ u, isDelimiter c = false) (next : ∀ c ∈ left.head?, isDelimiter c) : u.length ≤ after.length := by
  rcases List.append_eq_append_iff.mp eq with ⟨x, rfl, _⟩ | ⟨x, rfl, rfl⟩
  · simp
  · cases x
    case nil       => simp
    case cons c x =>
      have delimiter : isDelimiter c := next c rfl
      rw [kept c (by simp)] at delimiter
      cases delimiter

theorem isDelimiter_eq : isDelimiter '=' = false := by
  decide

theorem not_isDelimiter_of_isName (h : isName c) : isDelimiter c = false :=
  not_isDelimiter_of_isLocal (isLocal_of_isToken (isToken_of_isName h))

-- What is found in the value of a parameter ends with it.
theorem signedParam_in_value {after : List Char} {shown len : Nat}
    (h : signedParam (c :: (after ++ left)) = some (.param shown len)) (next : ∀ c ∈ left.head?, isDelimiter c) :
    shown + len ≤ 1 + after.length := by
  obtain ⟨d, name, value, left', eq, is, _, names, _, kept, _⟩ := signedParam_some h
  cases is
  simp only [List.cons_append, List.append_assoc, List.cons.injEq] at eq
  have eq : (name ++ '=' :: value) ++ left' = after ++ left := by simpa using eq.right.symm
  have := length_le_of_delimiter eq (fun c mem => ?_) next
  · rw [List.length_append, List.length_cons] at this
    omega
  · rcases List.mem_append.mp mem with mem | mem
    · exact not_isDelimiter_of_isName (names c mem)
    · rcases List.mem_cons.mp mem with rfl | mem
      · exact isDelimiter_eq
      · exact kept c mem

-- What is neither of a parameter's name nor around it is in its value.
theorem behind_name {before after : List Char} (eq : d :: name ++ '=' :: value = before ++ c :: after) (ne : before ≠ [])
    (not_name : c ∉ name) (not_equals : c ≠ '=') : name.length + 2 ≤ before.length := by
  rcases before with _ | ⟨b, before⟩
  · exact absurd rfl ne
  · simp only [List.cons_append, List.cons.injEq] at eq
    rcases List.append_eq_append_iff.mp eq.right with ⟨x, rfl, behind⟩ | ⟨x, rfl, behind⟩
    · rcases x with _ | ⟨e, x⟩
      · exact absurd (List.cons.inj behind).left.symm not_equals
      · simp only [List.length_cons, List.length_append]
        omega
    · rcases x with _ | ⟨e, x⟩
      · exact absurd (List.cons.inj behind).left not_equals
      · exact absurd (by simp [(List.cons.inj behind).left]) not_name

-- A parameter in what is found at a place is that itself, or lies in its value.
theorem Finds.param_within {f : Found} (h : Finds past f chunk left) {before after : List Char}
    (eq : chunk = before ++ c :: after) (is : signedParam (c :: (after ++ left)) ≠ none) :
    ∃ shown value, f = .param shown value ∧ ((before = [] ∧ signedParam (c :: (after ++ left)) = some f) ∨
      (shown ≤ before.length ∧ ∀ c ∈ left.head?, isDelimiter c)) := by
  have mark := signedParam_first is
  have mem : c ∈ chunk := by simp [eq]
  have not_token : isToken c = false := by
    rcases mark with rfl | rfl <;> decide
  cases h
  case key tokens _ _ => rw [tokens c mem] at not_token; cases not_token
  case refresh run _ tokens _ _ =>
    rcases List.mem_append.mp mem with mem | mem
    · rcases mark with rfl | rfl <;> exact absurd mem (by decide)
    · rw [tokens c mem] at not_token; cases not_token
  case address domains _ _ =>
    rcases List.mem_cons.mp mem with rfl | mem
    · rcases mark with mark | mark <;> cases mark
    · rw [isToken_of_isDomain (domains c mem)] at not_token; cases not_token
  case plain _ none_ _ _ =>
    cases before
    case cons => simp at eq
    case nil =>
      cases eq
      exact absurd none_ is
  case param d name value _ names known kept next found =>
    refine ⟨_, _, rfl, ?_⟩
    cases before
    case nil =>
      cases eq
      exact .inl ⟨rfl, by simpa using found⟩
    case cons b before =>
      have not_name : c ∉ name := fun mem => by
        rw [isToken_of_isName (names c mem)] at not_token
        cases not_token
      have not_equals : c ≠ '=' := by
        rcases mark with rfl | rfl <;> decide
      exact .inr ⟨behind_name eq (List.cons_ne_nil _ _) not_name not_equals, next⟩

theorem Finds.closed {f : Found} (h : Finds past f chunk left) (closed : Closed (past ++ (chunk ++ left)) past.length) :
    Closed (past ++ (chunk ++ left)) (past ++ chunk).length := by
  intro q lt shown value is
  rw [List.length_append] at lt ⊢
  by_cases before : q < past.length
  case pos => exact (closed q before shown value is).trans (Nat.le_add_right _ _)
  case neg =>
    obtain ⟨before, c, after, eq, rfl⟩ := split_place (Nat.le_of_not_lt before) lt
    rw [drop_place (split_append eq)] at is
    obtain ⟨_, _, rfl, ⟨rfl, same⟩ | ⟨_, next⟩⟩ := h.param_within eq (by rw [is]; nofun)
    · rw [is] at same
      cases same
      cases h
      simp
      omega
    · have := signedParam_in_value is next
      simp only [eq, List.length_append, List.length_cons]
      omega

end Values

section Kept

-- How many characters are written as they are.
def Found.kept : Found → Nat
  | plain         => 1
  | param shown _ => shown
  | _             => 0

theorem Finds.not_inValue {f : Found} (h : Finds past f chunk left)
    (closed : Closed (past ++ (chunk ++ left)) past.length) (le : past.length ≤ p) (lt : p < past.length + f.kept) :
    ¬InValue (past ++ (chunk ++ left)) p := by
  rintro ⟨q, shown, value, is, le', lt'⟩
  have size : f.kept ≤ chunk.length := by
    cases h <;> simp [Found.kept]
  by_cases before : q < past.length
  case pos =>
    have := closed q before shown value is
    omega
  case neg =>
    have inside : q < past.length + chunk.length := by omega
    obtain ⟨before, c, after, eq, rfl⟩ := split_place (Nat.le_of_not_lt before) inside
    rw [drop_place (split_append eq)] at is
    obtain ⟨_, _, rfl, ⟨rfl, same⟩ | ⟨within, _⟩⟩ := h.param_within eq (by rw [is]; nofun)
    · rw [is] at same
      cases same
      simp only [Found.kept, List.append_nil] at lt le'
      omega
    · simp only [Found.kept, List.length_append] at lt le'
      omega

theorem startsWord_append_false {b : List Char} (ne : b ≠ []) (tokens : ∀ c ∈ b, isToken c) :
    startsWord (past ++ b) = false := by
  rw [startsWord, List.getLast?_append_of_ne_nil past ne, List.getLast?_eq_some_getLast ne, Option.all_some,
    tokens _ (List.getLast_mem ne)]
  rfl

-- No signed parameter is named like a key.
theorem not_key_of_signed {after : List Char} (known : String.ofList (name.map Char.toLower) ∈ SIGNED_QUERY) :
    keyAt past (name ++ after) = none ∧ refreshToken past (name ++ after) = none := by
  have signed := List.all_eq_true.mp (by decide : SIGNED_QUERY.all fun s => 2 ≤ s.toList.length ∧
    s.toList.take 2 ∉ ["ya".toList, "am".toList, "pr".toList, "1/".toList]) _ known
  simp only [String.toList_ofList, List.length_map, decide_eq_true_eq] at signed
  have none_ : ¬(keyAt past (name ++ after) ≠ none ∨ refreshToken past (name ++ after) ≠ none) := by
    intro is
    obtain ⟨start, mem, more, eq⟩ := keyAt_prefix is
    have ⟨len, lower⟩ : start.length = 2 ∧ start.map Char.toLower = start := of_decide_eq_true
      (List.all_eq_true.mp (by decide : ["ya".toList, "am".toList, "pr".toList, "1/".toList].all fun start =>
        start.length = 2 ∧ start.map Char.toLower = start) start mem)
    have same : start = name.take 2 := by
      have := congrArg (List.take 2) eq
      rw [List.take_left' len, List.take_append_of_le_length signed.left] at this
      exact this
    refine signed.right ?_
    rw [← List.map_take, ← same, lower]
    exact mem
  exact ⟨by_contra fun is => none_ (.inl is), by_contra fun is => none_ (.inr is)⟩

theorem Finds.keeps_plain {f : Found} (h : Finds past f chunk left)
    (closed : Closed (past ++ (chunk ++ left)) past.length) {before after : List Char} (eq : chunk = before ++ c :: after)
    (lt : before.length < f.kept) : Plain (past ++ (chunk ++ left)) (past ++ before).length := by
  have outside := h.not_inValue closed (p := (past ++ before).length) (by simp) (by simpa using lt)
  suffices keyAt (past ++ before) (c :: (after ++ left)) = none ∧
      refreshToken (past ++ before) (c :: (after ++ left)) = none ∧ Logging.address (past ++ before) (c :: (after ++ left)) = none by
    refine ⟨?_, ?_, ?_, outside⟩ <;> rw [take_place (split_append eq), drop_place (split_append eq)]
    · exact this.left
    · exact this.right.left
    · exact this.right.right
  -- A character that none of them begins with.
  have others (first : c ∉ FIRSTS) (at' : c ≠ '@') : keyAt (past ++ before) (c :: (after ++ left)) = none ∧
      refreshToken (past ++ before) (c :: (after ++ left)) = none ∧
      Logging.address (past ++ before) (c :: (after ++ left)) = none :=
    ⟨by_contra fun is => first (keyAt_first (.inl is)), by_contra fun is => first (keyAt_first (.inr is)),
      by_contra fun is => at' (address_first is)⟩
  cases h
  case key     => cases lt
  case refresh => cases lt
  case address => cases lt
  case plain key _ refresh address =>
    cases List.length_eq_zero_iff.mp (Nat.lt_one_iff.mp lt)
    cases eq
    simpa using ⟨key, refresh, address⟩
  case param d name value mark names known _ _ _ =>
    cases before
    case nil =>
      have same := (List.cons.inj eq).left
      rcases same ▸ mark with rfl | rfl
      · exact others (by decide) (by decide)
      · exact others (by decide) (by decide)
    case cons b before =>
      simp only [List.cons_append, List.cons.injEq] at eq
      obtain ⟨rfl, eq⟩ := eq
      rcases List.append_eq_append_iff.mp eq with ⟨x, rfl, behind⟩ | ⟨x, rfl, behind⟩
      · have : x = [] := by
          refine List.length_eq_zero_iff.mp ?_
          simp only [Found.kept, List.length_cons, List.length_append] at lt
          omega
        subst this
        have same : '=' = c := (List.cons.inj behind).left
        exact others (same ▸ by decide) (same ▸ by decide)
      · have next : c :: (after ++ left) = x ++ '=' :: (value ++ left) := by
          rw [← List.cons_append, behind, List.append_assoc, List.cons_append]
        rcases x with _ | ⟨c', x⟩
        · have same : c = '=' := (List.cons.inj behind).left
          exact others (same ▸ by decide) (same ▸ by decide)
        · have same : c = c' := (List.cons.inj next).left
          have inside : isName c := names c (by simp [same])
          have unkeyed : ¬(keyAt (past ++ d :: before) (c :: (after ++ left)) ≠ none ∨
              refreshToken (past ++ d :: before) (c :: (after ++ left)) ≠ none) := by
            intro is
            by_cases first : before = []
            case pos =>
              rw [next, first] at is
              have known : String.ofList ((c' :: x).map Char.toLower) ∈ SIGNED_QUERY := by simpa [first] using known
              have none_ : keyAt (past ++ [d]) (c' :: x ++ '=' :: (value ++ left)) = none ∧
                  refreshToken (past ++ [d]) (c' :: x ++ '=' :: (value ++ left)) = none := not_key_of_signed known
              exact is.elim (· none_.left) (· none_.right)
            case neg =>
              have starts := keyAt_starts is
              have tokens : ∀ c ∈ before, isToken c := fun c mem => isToken_of_isName (names c (by simp [mem]))
              rw [← List.singleton_append, ← List.append_assoc, startsWord_append_false first tokens] at starts
              cases starts
          refine ⟨by_contra fun is => unkeyed (.inl is), by_contra fun is => unkeyed (.inr is), by_contra fun is => ?_⟩
          rw [address_first is] at inside
          exact absurd inside (by decide)

end Kept

-- What is written next to what: pieces of the text in their order, and whole markers but for their ends.
def Cell.Next : Cell → Cell → Prop
  | kept p _,     kept q _     => q = p + 1
  | kept _ _,     mark _ _ _ i => i = 0
  | mark m _ _ i, kept _ c     => i + 1 = m.text.length ∧ ¬c.isAlphanum
  | mark m _ _ i, mark n _ _ j => j = 0 ∨ (n = m ∧ j = i + 1)

def Cell.First : Cell → Prop
  | kept p _     => p = 0
  | mark _ _ _ i => i = 0

-- Where the last of what is written is from, with what is left of the text behind.
def Cell.Last (past rest : List Char) : Cell → Prop
  | kept p _     => p + 1 = past.length
  | mark m _ _ i => i + 1 = m.text.length ∧ ∀ c ∈ rest.head?, ¬c.isAlphanum

structure Sound (past rest : List Char) (out : List Cell) : Prop where
  kept  : ∀ p c, .kept p c ∈ out → (past ++ rest)[p]? = some c ∧ Plain (past ++ rest) p
  marks : ∀ m first last i, .mark m first last i ∈ out → i < m.text.length
  chain : out.IsChain Cell.Next
  first : ∀ cell ∈ out.head?, cell.First
  last  : ∀ cell ∈ out.getLast?, cell.Last past rest
  begin : out = [] → past = []

namespace Sound

variable {out out' : List Cell} {m : Marker} {first last : Nat}

theorem keepOne (h : Sound past (c :: rest) out) (plain : Plain (past ++ c :: rest) past.length) :
    Sound (past ++ [c]) rest (out ++ [.kept past.length c]) := by
  have same : past ++ [c] ++ rest = past ++ c :: rest := by simp
  constructor
  case kept =>
    intro p d mem
    rw [same]
    rcases List.mem_append.mp mem with mem | mem
    · exact h.kept p d mem
    · cases List.mem_singleton.mp mem
      exact ⟨getElem?_place rfl, plain⟩
  case marks =>
    intro m first last i mem
    rcases List.mem_append.mp mem with mem | mem
    · exact h.marks m first last i mem
    · cases List.mem_singleton.mp mem
  case chain =>
    refine h.chain.append (.singleton _) fun x mem y mem' => ?_
    cases Option.mem_some.mp mem'
    have := h.last x mem
    cases x
    case kept => exact this.symm
    case mark => exact ⟨this.left, this.right c rfl⟩
  case first =>
    intro cell mem
    cases out
    case nil       => cases Option.mem_some.mp mem; exact List.length_eq_zero_iff.mpr (h.begin rfl)
    case cons x xs => exact h.first cell mem
  case last =>
    intro cell mem
    rw [List.getLast?_append_cons, List.getLast?_singleton] at mem
    cases Option.mem_some.mp mem
    simp [Cell.Last]
  case begin => exact fun nil => absurd nil (by simp)

theorem keep (h : Sound past (cs ++ rest) out)
    (plain : ∀ before c after, cs = before ++ c :: after → Plain (past ++ (cs ++ rest)) (past ++ before).length) :
    Sound (past ++ cs) rest (out ++ Logging.keep past.length cs) := by
  induction cs generalizing past out
  case nil => simpa [Logging.keep] using h
  case cons c cs ih =>
    have one := h.keepOne (by simpa using plain [] c cs rfl)
    have more := ih one fun before d after eq => by simpa [eq] using plain (c :: before) d after (by simp [eq])
    simpa [Logging.keep] using more

theorem next_mark (x : Cell) : x.Next (.mark m first last 0) := by
  cases x
  · exact rfl
  · exact .inl rfl

theorem chain_mark : (Logging.mark m first last).IsChain Cell.Next := by
  rw [Logging.mark, List.isChain_map, List.isChain_range]
  exact fun i _ => .inr ⟨rfl, rfl⟩

-- What is written can be cut off anywhere before a marker.
theorem mark (h : Sound past (chunk ++ left) out) (cut : out' <+: out) (next : ∀ c ∈ left.head?, ¬c.isAlphanum) :
    Sound (past ++ chunk) left (out' ++ Logging.mark m first last) := by
  have head : (Logging.mark m first last).head? = some (.mark m first last 0) := by
    cases m <;> rfl
  have getLast : (Logging.mark m first last).getLast? = some (.mark m first last (m.text.length - 1)) := by
    cases m <;> rfl
  constructor
  case kept =>
    intro p c mem
    rw [List.append_assoc]
    rcases List.mem_append.mp mem with mem | mem
    · exact h.kept p c (cut.subset mem)
    · obtain ⟨_, _, eq⟩ := List.mem_map.mp mem
      cases eq
  case marks =>
    intro n first last i mem
    rcases List.mem_append.mp mem with mem | mem
    · exact h.marks n first last i (cut.subset mem)
    · obtain ⟨j, inside, eq⟩ := List.mem_map.mp mem
      cases eq
      exact List.mem_range.mp inside
  case chain =>
    have kept := List.IsChain.prefix h.chain cut
    refine kept.append chain_mark fun x _ y mem => ?_
    rw [head] at mem
    cases Option.mem_some.mp mem
    exact next_mark x
  case first =>
    intro cell mem
    cases out'
    case nil =>
      rw [List.nil_append, head] at mem
      cases Option.mem_some.mp mem
      exact rfl
    case cons x xs =>
      obtain ⟨more, eq⟩ := cut
      exact h.first cell (by rw [← eq]; exact mem)
  case last =>
    intro cell mem
    rw [List.getLast?_append, getLast, Option.some_or] at mem
    cases Option.mem_some.mp mem
    exact ⟨by cases m <;> rfl, next⟩
  case begin =>
    intro nil
    rw [(List.append_eq_nil_iff.mp nil).right] at head
    cases head

end Sound

-- Behind what is found a word does not go on.
theorem Finds.next {f : Found} (h : Finds past f chunk left) (marked : f ≠ .plain) :
    ∀ c ∈ left.head?, ¬c.isAlphanum := by
  intro c mem alphanum
  cases h
  case key next _ =>
    have := next c mem
    simp [isToken, alphanum] at this
  case refresh _ _ next _ =>
    have := next c mem
    simp [isToken, alphanum] at this
  case param next _ =>
    have := not_isDelimiter_of_isLocal (c := c) (by simp [isLocal, alphanum])
    rw [next c mem] at this
    cases this
  case address next _ =>
    rcases next c mem with rfl | none_
    · cases alphanum
    · simp [isDomain, alphanum] at none_
  case plain => exact marked rfl

-- What holds all along the loop over a text.
structure Written (text past rest : List Char) (out : List Cell) : Prop where
  whole  : past ++ rest = text
  closed : Closed text past.length
  sound  : Sound past rest out

theorem Written.step {out : List Cell} (h : Written text past (chunk ++ left) out)
    (finds : Finds past (found past (chunk ++ left)) chunk left) :
    Written text (past ++ chunk) left (trace past (chunk ++ left) out (found past (chunk ++ left))) := by
  obtain ⟨rfl, closed, sound⟩ := h
  have plain : ∀ before c after, chunk = before ++ c :: after → before.length < (found past (chunk ++ left)).kept →
      Plain (past ++ (chunk ++ left)) (past ++ before).length :=
    fun before c after eq lt => finds.keeps_plain closed eq lt
  refine ⟨by simp, finds.closed closed, ?_⟩
  generalize found past (chunk ++ left) = f at finds plain
  have next := finds.next
  cases finds
  case key     => exact sound.mark (List.prefix_refl _) (next (by rintro ⟨⟩))
  case refresh => exact sound.mark (List.prefix_refl _) (next (by rintro ⟨⟩))
  case address => exact sound.mark (List.take_prefix _ _) (next (by rintro ⟨⟩))
  case plain c _ _ _ _ =>
    refine sound.keepOne ?_
    simpa using plain [] c [] rfl Nat.one_pos
  case param c name value mark names known kept after found =>
    have split : c :: name ++ '=' :: value ++ left = (c :: name ++ ['=']) ++ (value ++ left) := by simp
    have shown : (c :: name ++ '=' :: value ++ left).take (name.length + 2) = c :: name ++ ['='] := by
      rw [split, List.take_left' (by simp)]
    rw [trace, shown]
    have kept : Sound (past ++ (c :: name ++ ['='])) (value ++ left) (out ++ keep past.length (c :: name ++ ['='])) := by
      rw [split] at sound
      refine sound.keep fun before d after eq => ?_
      rw [← split]
      refine plain before d (after ++ value) (by rw [← List.cons_append, ← List.append_assoc, ← eq]; simp) ?_
      have := congrArg List.length eq
      simp [Found.kept] at this ⊢
      omega
    have marked : Sound (past ++ (c :: name ++ ['=']) ++ value) left
        (out ++ keep past.length (c :: name ++ ['=']) ++ Logging.mark .redacted (past.length + (name.length + 2))
          (past.length + (name.length + 2) + value.length)) :=
      kept.mark (List.prefix_refl _) (next (by rintro ⟨⟩))
    simpa using marked

theorem written (text : List Char) : Written text text [] (traced text) := by
  have start : Written text [] text [] :=
    ⟨rfl, nofun, ⟨nofun, nofun, .nil, nofun, nofun, fun _ => rfl⟩⟩
  exact scan_invariant (fun _ _ _ _ => Written.step) le_rfl start

section Output

variable {out before behind more : List Cell}

theorem drop_eq_cons (h : text[p]? = some c) : text.drop p = c :: text.drop (p + 1) := by
  obtain ⟨lt, rfl⟩ := List.getElem?_eq_some_iff.mp h
  exact (List.getElem_cons_drop lt).symm

-- What is written behind a character of the text is what the text has there, up to a marker.
theorem Sound.follow (h : Sound past rest out) (eq : out = before ++ .kept p c :: (behind ++ more))
    (unmarked : '<' ∉ behind.map Cell.char) : behind.map Cell.char <+: (past ++ rest).drop (p + 1) := by
  induction behind generalizing before p c
  case nil => exact List.nil_prefix
  case cons cell behind ih =>
    simp only [List.map_cons, List.mem_cons, not_or] at unmarked
    have chain : (Cell.kept p c :: cell :: (behind ++ more)).IsChain Cell.Next :=
      h.chain.suffix ⟨before, by simp [eq]⟩
    have next : Cell.Next (.kept p c) cell := chain.rel
    cases cell
    case mark m _ _ i =>
      cases next
      cases m <;> exact absurd rfl unmarked.left
    case kept q d =>
      cases next
      have := (h.kept (p + 1) d (by simp [eq])).left
      rw [drop_eq_cons this, List.map_cons]
      have eq : out = before ++ [.kept p c] ++ .kept (p + 1) d :: (behind ++ more) := by simp [eq]
      exact List.cons_prefix_cons.mpr ⟨rfl, ih eq unmarked.right⟩

theorem mark_char (m : Marker) (i : Nat) (lt : i < m.text.length) :
    m.text.getD i ' ' ≠ '@' ∧ (i + 1 = m.text.length → isLocal (m.text.getD i ' ') = false) ∧
      (m.text.getD i ' ' ∈ FIRSTS → 2 ≤ i ∧ isToken (m.text.getD (i - 1) ' ')) := by
  cases m <;> revert i <;> decide

-- What is written before a character of the text.
theorem Sound.before_kept (h : Sound past rest out) (eq : out = before ++ .kept p c :: more) {d : Char}
    (last : (before.map Cell.char).getLast? = some d) :
    ((past ++ rest).take p).getLast? = some d ∨ (¬c.isAlphanum ∧ isLocal d = false) := by
  obtain ⟨before, x, rfl, rfl⟩ : ∃ init x, before = init ++ [x] ∧ x.char = d := by
    rw [List.getLast?_map, Option.map_eq_some_iff] at last
    obtain ⟨x, last, rfl⟩ := last
    obtain ⟨init, rfl⟩ := List.getLast?_eq_some_iff.mp last
    exact ⟨init, x, rfl, rfl⟩
  have chain : (x :: .kept p c :: more).IsChain Cell.Next := h.chain.suffix ⟨before, by simp [eq]⟩
  have next : x.Next (.kept p c) := chain.rel
  cases x
  case kept q d =>
    cases next
    have := (h.kept q d (by simp [eq])).left
    obtain ⟨lt, rfl⟩ := List.getElem?_eq_some_iff.mp this
    refine .inl ?_
    rw [List.take_add_one, List.getElem?_eq_getElem lt, Option.toList_some, List.getLast?_append, List.getLast?_singleton]
    rfl
  case mark m begins ends i =>
    have lt := h.marks m begins ends i (by simp [eq])
    exact .inr ⟨next.right, (mark_char m i lt).right.left next.left⟩

-- What begins a word where it is written does so in the text.
theorem Sound.startsWord (h : Sound past rest out) (eq : out = before ++ .kept p c :: more) (alphanum : c.isAlphanum)
    (starts : Logging.startsWord (before.map Cell.char)) : Logging.startsWord ((past ++ rest).take p) := by
  cases last : (before.map Cell.char).getLast?
  case none =>
    have nil : before = [] := by simpa using last
    have zero : p = 0 := h.first (.kept p c) (by rw [eq, nil]; rfl)
    rw [zero, List.take_zero]
    rfl
  case some d =>
    rcases h.before_kept eq last with same | ⟨none_, _⟩
    · rw [Logging.startsWord, same]
      rw [Logging.startsWord, last] at starts
      exact starts
    · exact absurd alphanum none_

-- A word does not begin in a marker with what a key or token begins with.
theorem Sound.no_first_in_mark {m : Marker} {first last i : Nat} (h : Sound past rest out)
    (eq : out = before ++ .mark m first last i :: more) (is : m.text.getD i ' ' ∈ FIRSTS) :
    Logging.startsWord (before.map Cell.char) = false := by
  have ⟨pos, token⟩ := (mark_char m i (h.marks m first last i (by simp [eq]))).right.right is
  cases List.eq_nil_or_concat before
  case inl nil =>
    have zero : i = 0 := h.first (.mark m first last i) (by rw [eq, nil]; rfl)
    omega
  case inr some_ =>
    obtain ⟨init, x, rfl⟩ := some_
    have chain : (x :: .mark m first last i :: more).IsChain Cell.Next := h.chain.suffix ⟨init, by simp [eq]⟩
    have next : x.Next (.mark m first last i) := chain.rel
    cases x
    case kept => cases next; omega
    case mark =>
      rcases next with zero | ⟨rfl, rfl⟩
      · omega
      · simp only [Logging.startsWord, List.concat_eq_append, List.map_append, List.map_singleton, List.getLast?_append,
          List.getLast?_singleton, Option.some_or, Option.all_some, Cell.char]
        simpa using token

theorem length_takeWhile_le {run : List Char} (tokens : ∀ c ∈ run, isToken c) :
    run.length ≤ ((run ++ left).takeWhile isToken).length := by
  rw [List.takeWhile_append_of_pos tokens, List.length_append]
  exact Nat.le_add_right _ _

theorem isPrefixOf_append_congr {s key left left' : List Char} (le : s.length ≤ key.length) :
    s.isPrefixOf (key ++ left') = s.isPrefixOf (key ++ left) := by
  have drop (l : List Char) : s <+: key ++ l ↔ s <+: key :=
    ⟨fun first => List.prefix_of_prefix_length_le first (List.prefix_append key l) le,
      fun first => first.trans (List.prefix_append key l)⟩
  rw [Bool.eq_iff_iff, List.isPrefixOf_iff_prefix, List.isPrefixOf_iff_prefix, drop, drop]

-- A key is one with anything behind it.
theorem keyAt_of_keyAt {key left' : List Char} (h : keyAt past (key ++ left) = some (.token key.length))
    (starts : startsWord cs) (tokens : ∀ c ∈ key, isToken c) : keyAt cs (key ++ left') ≠ none := by
  intro none_
  obtain ⟨noAccess, noKey⟩ := Option.or_eq_none_iff.mp none_
  rcases Option.or_eq_some_iff.mp h with is | ⟨_, is⟩
  · rw [accessToken] at is
    split at is
    case isFalse => cases is
    case isTrue at' =>
      have len := Found.token.inj (Option.some.inj is)
      have long : ("ya29.".toList).length ≤ key.length := by
        rw [← len]
        exact Nat.le_add_right _ _
      have first : "ya29.".toList <+: key ++ left' :=
        (List.prefix_of_prefix_length_le at'.right (List.prefix_append key left) long).trans (List.prefix_append _ _)
      rw [accessToken, if_pos ⟨starts, first⟩] at noAccess
      cases noAccess
  · rw [apiKey] at is
    split at is
    case isFalse => cases is
    case isTrue =>
      obtain ⟨start, is, found⟩ := Option.bind_eq_some_iff.mp is
      dsimp only at found
      split at found
      case isFalse => cases found
      case isTrue long =>
        have len := Found.token.inj (Option.some.inj found)
        have size : start.toList.length ≤ key.length := by
          rw [← len, String.length_toList]
          exact Nat.le_add_right _ _
        have first : start.toList <+: key :=
          List.prefix_of_prefix_length_le (List.isPrefixOf_iff_prefix.mp (by simpa using List.find?_some is))
            (List.prefix_append key left) size
        have short : ∀ s ∈ KEY_PREFIXES, s.toList.length ≤ key.length := by
          have le := List.all_eq_true.mp (by decide : KEY_PREFIXES.all fun s => s.toList.length ≤ 5)
          exact fun s mem => (of_decide_eq_true (le s mem)).trans (by omega)
        have same : KEY_PREFIXES.find? (·.toList.isPrefixOf (key ++ left')) = some start :=
          (List.find?_congr fun s mem => isPrefixOf_append_congr (short s mem)).trans is
        obtain ⟨run, rfl⟩ := first
        rw [apiKey, if_pos starts, same, Option.bind_some] at noKey
        have drop : (start.toList ++ run ++ left').drop start.length = run ++ left' := by
          rw [List.append_assoc, ← String.length_toList, List.drop_left' rfl]
        have : run.length ≤ ((run ++ left').takeWhile isToken).length :=
          length_takeWhile_le fun c mem => tokens c (List.mem_append_right start.toList mem)
        rw [List.length_append, String.length_toList] at len
        dsimp only at noKey
        rw [drop, if_pos (by omega)] at noKey
        cases noKey

theorem refreshToken_of_refreshToken {run left' : List Char} (long : 20 ≤ run.length) (tokens : ∀ c ∈ run, isToken c)
    (starts : startsWord cs) : refreshToken cs ("1//".toList ++ (run ++ left')) ≠ none := by
  have drop : ("1//".toList ++ (run ++ left')).drop 3 = run ++ left' := rfl
  have : run.length ≤ ((run ++ left').takeWhile isToken).length := length_takeWhile_le tokens
  rw [refreshToken, drop, if_pos ⟨starts, List.prefix_append _ _, by omega⟩]
  rintro ⟨⟩

theorem takeWhile_domain {domain more : List Char} (domains : ∀ c ∈ domain, isDomain c)
    (last : domain.getLast? ≠ some '.') : ∃ z, ((domain ++ more).takeWhile isDomain).rdropWhile (· = '.') = domain ++ z := by
  rw [List.takeWhile_append_of_pos domains]
  generalize more.takeWhile isDomain = behind
  induction behind using List.reverseRecOn
  case nil =>
    refine ⟨[], ?_⟩
    simp only [List.append_nil]
    rw [List.rdropWhile_eq_self_iff]
    intro ne is
    exact last (by rw [List.getLast?_eq_some_getLast ne]; simpa using is)
  case append_singleton behind c ih =>
    rw [← List.append_assoc]
    by_cases dot : c = '.'
    case pos => rw [List.rdropWhile_concat_pos _ _ _ (by simpa using dot)]; exact ih
    case neg => rw [List.rdropWhile_concat_neg _ _ _ (by simpa using dot)]; exact ⟨behind ++ [c], List.append_assoc ..⟩

theorem address_of_domain {domain more : List Char} (written : past.rtakeWhile isLocal ≠ []) (dot : '.' ∈ domain)
    (first : domain.head? ≠ some '.') (last : domain.getLast? ≠ some '.') (domains : ∀ c ∈ domain, isDomain c) :
    address past ('@' :: (domain ++ more)) ≠ none := by
  have ne : domain ≠ [] := List.ne_nil_of_mem dot
  obtain ⟨z, eq⟩ : ∃ z, ((domain ++ more).takeWhile isDomain).rdropWhile (· = '.') = domain ++ z :=
    takeWhile_domain domains last
  have first : (domain ++ z).head? ≠ some '.' := by
    rw [List.head?_append_of_ne_nil _ ne]
    exact first
  rw [address, eq, if_pos ⟨rfl, written, List.mem_append_left _ dot, first⟩]
  rintro ⟨⟩

theorem rtakeWhile_ne_nil {p : Char → Bool} : cs.rtakeWhile p ≠ [] ↔ ∃ c, cs.getLast? = some c ∧ p c := by
  rw [ne_eq, List.rtakeWhile_eq_nil_iff]
  constructor
  · intro some_
    by_contra none_
    refine some_ fun ne is => none_ ⟨_, List.getLast?_eq_some_getLast ne, is⟩
  · rintro ⟨c, last, is⟩ none_
    have ne : cs ≠ [] := by
      rintro rfl
      cases last
    rw [List.getLast?_eq_some_getLast ne, Option.some_inj] at last
    exact none_ ne (last ▸ is)

-- An address that is written would be one of the text, at a place that the loop keeps.
theorem Sound.no_address {x y : List Char} (h : Sound past rest out) (eq : out.map Cell.char = x ++ y) :
    address x y = none := by
  by_contra is
  obtain ⟨f, is⟩ := Option.ne_none_iff_exists'.mp is
  obtain ⟨domain, left, rfl, _, written, dot, first, last, domains, _⟩ := address_some is
  obtain ⟨before, _, rfl, rfl, eq'⟩ := List.map_eq_append_iff.mp eq
  obtain ⟨cell, _, rfl, at', eq'⟩ := List.map_eq_cons_iff.mp eq'
  obtain ⟨behind, more, rfl, rfl, _⟩ := List.map_eq_append_iff.mp eq'
  cases cell
  case mark m first last i => exact (mark_char m i (h.marks m first last i (by simp))).left at'
  case kept p c =>
    have at' : c = '@' := at'
    subst at'
    have unmarked : '<' ∉ behind.map Cell.char := fun mem => absurd (domains _ mem) (by decide)
    obtain ⟨more, follow⟩ := h.follow rfl unmarked
    have ⟨is, plain⟩ := h.kept p '@' (by simp)
    have written : ((past ++ rest).take p).rtakeWhile isLocal ≠ [] := by
      obtain ⟨d, last, isLocal⟩ := rtakeWhile_ne_nil.mp written
      rcases h.before_kept rfl last with last | ⟨_, other⟩
      · exact rtakeWhile_ne_nil.mpr ⟨d, last, isLocal⟩
      · rw [isLocal] at other
        cases other
    have none_ := plain.address
    rw [drop_eq_cons is, ← follow] at none_
    exact address_of_domain written dot first last domains none_

-- What begins a word like a key or token is from the text, where it begins a word too.
theorem Sound.read {x left key : List Char} (h : Sound past rest out) (eq : out.map Cell.char = x ++ (key ++ left))
    (starts : Logging.startsWord x) (first : ∃ c ∈ key.head?, c ∈ FIRSTS) (unmarked : '<' ∉ key) :
    ∃ p more, Logging.startsWord ((past ++ rest).take p) ∧ (past ++ rest).drop p = key ++ more ∧
      Plain (past ++ rest) p := by
  cases key
  case nil => exact nomatch first
  case cons c key =>
    obtain ⟨_, ⟨⟩, first⟩ := first
    obtain ⟨before, _, rfl, rfl, eq'⟩ := List.map_eq_append_iff.mp eq
    rw [List.cons_append] at eq'
    obtain ⟨cell, _, rfl, rfl, behind_eq⟩ := List.map_eq_cons_iff.mp eq'
    obtain ⟨behind, more, rfl, rfl, _⟩ := List.map_eq_append_iff.mp behind_eq
    cases cell
    case mark m _ _ i =>
      rw [h.no_first_in_mark rfl first] at starts
      cases starts
    case kept p c =>
      have ⟨is, plain⟩ := h.kept p c (by simp)
      obtain ⟨more, follow⟩ := h.follow rfl fun mem => unmarked (List.mem_cons_of_mem _ mem)
      have alphanum : c.isAlphanum := List.all_eq_true.mp (by decide : FIRSTS.all Char.isAlphanum) c first
      refine ⟨p, more, h.startsWord rfl alphanum starts, ?_, plain⟩
      rw [drop_eq_cons is, ← follow]
      rfl

theorem Sound.no_key {x y : List Char} (h : Sound past rest out) (eq : out.map Cell.char = x ++ y) :
    keyAt x y = none ∧ refreshToken x y = none := by
  have no_marker {cs : List Char} (tokens : ∀ c ∈ cs, isToken c) : '<' ∉ cs := fun mem => absurd (tokens _ mem) (by decide)
  constructor
  · by_contra is
    obtain ⟨f, is⟩ := Option.ne_none_iff_exists'.mp is
    obtain ⟨key, left, rfl, rfl, starts, long, tokens, _⟩ := (Option.or_eq_some_iff.mp is).elim accessToken_some
      fun h => apiKey_some h.right
    have first : ∃ c ∈ key.head?, c ∈ FIRSTS := by
      rcases key with _ | ⟨c, key⟩
      · cases long
      · exact ⟨c, rfl, keyAt_first (.inl (by rw [← List.cons_append, is]; nofun))⟩
    obtain ⟨p, more, starts, drop, plain⟩ := h.read eq starts first (no_marker tokens)
    have none_ := plain.key
    rw [drop] at none_
    exact keyAt_of_keyAt is starts tokens none_
  · by_contra is
    obtain ⟨f, is⟩ := Option.ne_none_iff_exists'.mp is
    obtain ⟨run, left, rfl, rfl, starts, long, tokens, _⟩ := refreshToken_some is
    have eq : out.map Cell.char = x ++ (("1//".toList ++ run) ++ left) := by rw [eq, List.append_assoc]
    have unmarked : '<' ∉ "1//".toList ++ run := fun mem =>
      (List.mem_append.mp mem).elim (by decide) (no_marker tokens)
    obtain ⟨p, more, starts, drop, plain⟩ := h.read eq starts ⟨'1', rfl, by decide⟩ unmarked
    have none_ := plain.refresh
    rw [drop, List.append_assoc] at none_
    exact refreshToken_of_refreshToken long tokens starts none_

theorem clean (text : List Char) : Clean text := by
  have ⟨whole, _, sound⟩ := written text
  generalize out_eq : traced text = out at sound
  have chars : scrubbed text = out.map Cell.char := by rw [← out_eq, map_char_traced]
  rw [List.append_nil] at whole
  constructor
  case values =>
    intro p c mem
    have ⟨is, plain⟩ := sound.kept p c (out_eq ▸ mem)
    rw [List.append_nil] at is plain
    exact ⟨is, plain.value⟩
  case addresses =>
    intro past rest eq
    exact sound.no_address (chars ▸ eq.symm)
  case keys =>
    intro past rest eq
    exact sound.no_key (chars ▸ eq.symm)

end Output

end Kaluta.Logging
