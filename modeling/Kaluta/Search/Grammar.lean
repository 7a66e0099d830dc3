import Kaluta.Search.Lexical

namespace Kaluta

-- query := or
-- or    := and ("OR" and)*
-- and   := unary+
-- unary := "-" unary | atom
-- atom  := "(" or ")" | field ":" value | "\"phrase\"" | word
inductive Rule
  | or
  | alternatives -- ("OR" and)*
  | and
  | terms        -- unary*
  | unary
  | atom

-- The trees that a rule makes of tokens.
inductive Derives : Rule → List Kind → List SearchExpr → Prop
  | or : Derives .and ks [e] → Derives .alternatives ks' es → Derives .or (ks ++ ks') [collectOr (e :: es)]
  | noAlternative : Derives .alternatives [] []
  | alternative : Derives .and ks [e] → Derives .alternatives ks' es →
    Derives .alternatives (.or :: (ks ++ ks')) (e :: es)
  | and : Derives .terms ks es → es ≠ [] → Derives .and ks [collectAnd es]
  | noTerm : Derives .terms [] []
  | term : Derives .unary ks [e] → Derives .terms ks' es → Derives .terms (ks ++ ks') (e :: es)
  | not : Derives .unary ks [e] → Derives .unary (.minus :: ks) [.not e]
  | plain : Derives .atom ks [e] → Derives .unary ks [e]
  | group : Derives .or ks [e] → Derives .atom (.open :: (ks ++ [.close])) [e]
  | phrase : Derives .atom [.quoted q] [.phrase q]
  | text : Derives .atom [.word w] [.text w]
  | fieldWord : fieldExpr f v = .ok e → Derives .atom [.field f, .word v] [e]
  | fieldQuoted : fieldExpr f v = .ok e → Derives .atom [.field f, .quoted v] [e]

-- The tree that the grammar assigns to a query. A query without a token is an empty `and`.
def Assigns (input : String) (e : SearchExpr) : Prop :=
  ∃ ks, Lexes input.toList ks ∧ (ks = [] ∧ e = .and [] ∨ Derives .or ks [e])

theorem kindsOf_append : kindsOf (ts ++ ts') = kindsOf ts ++ kindsOf ts' :=
  List.map_append

namespace Parser

-- What the functions of the parser return, their rules derive from the tokens that they take.
structure Sound (n : Nat) : Prop where
  or : ∀ {ts e r}, or n ts = .ok (e, r) → ∃ used, ts = used ++ r ∧ Derives .or (kindsOf used) [e]
  orLoop : ∀ {any ts any' r}, orLoop n any ts = .ok (any', r) →
    ∃ used es, ts = used ++ r ∧ any' = any ++ es ∧ Derives .alternatives (kindsOf used) es
  and : ∀ {ts e r}, and n ts = .ok (e, r) → ∃ used, ts = used ++ r ∧ Derives .and (kindsOf used) [e]
  andLoop : ∀ {all ts all' r}, andLoop n all ts = .ok (all', r) →
    ∃ used es, ts = used ++ r ∧ all' = all ++ es ∧ Derives .terms (kindsOf used) es
  unary : ∀ {ts e r}, unary n ts = .ok (e, r) → ∃ used, ts = used ++ r ∧ Derives .unary (kindsOf used) [e]
  atom : ∀ {ts e r}, atom n ts = .ok (e, r) → ∃ used, ts = used ++ r ∧ Derives .atom (kindsOf used) [e]

theorem Sound.or_succ (h : Sound n) (hs : Parser.or (n + 1) ts = .ok (e, r)) :
    ∃ used, ts = used ++ r ∧ Derives .or (kindsOf used) [e] := by
  rw [Parser.or] at hs
  have ⟨(first, ts₁), ha, hs⟩ := Except.bind_eq_ok.mp hs
  have ⟨(any, ts₂), hl, hs⟩ := Except.bind_eq_ok.mp hs
  cases hs
  obtain ⟨used, rfl, hd⟩ := h.and ha
  obtain ⟨used', es, rfl, rfl, hd'⟩ := h.orLoop hl
  refine ⟨used ++ used', (List.append_assoc ..).symm, ?_⟩
  rw [kindsOf_append]
  exact .or hd hd'

theorem Sound.orLoop_succ (h : Sound n) (hs : Parser.orLoop (n + 1) any ts = .ok (any', r)) :
    ∃ used es, ts = used ++ r ∧ any' = any ++ es ∧ Derives .alternatives (kindsOf used) es := by
  rw [Parser.orLoop.eq_def] at hs
  dsimp only at hs
  split at hs
  case h_1 pos ts =>
    have ⟨(e, ts₁), ha, hl⟩ := Except.bind_eq_ok.mp hs
    obtain ⟨used, rfl, hd⟩ := h.and ha
    obtain ⟨used', es, rfl, rfl, hd'⟩ := h.orLoop hl
    refine ⟨⟨.or, pos⟩ :: (used ++ used'), e :: es, by simp, by simp, ?_⟩
    have := Derives.alternative hd hd'
    rwa [← kindsOf_append] at this
  case h_2 =>
    cases hs
    exact ⟨[], [], rfl, (List.append_nil _).symm, .noAlternative⟩

theorem Sound.and_succ (h : Sound n) (hs : Parser.and (n + 1) ts = .ok (e, r)) :
    ∃ used, ts = used ++ r ∧ Derives .and (kindsOf used) [e] := by
  rw [Parser.and] at hs
  have ⟨(all, ts₁), hl, hs⟩ := Except.bind_eq_ok.mp hs
  dsimp only at hs
  split at hs
  case isTrue  => cases hs
  case isFalse he =>
    cases hs
    obtain ⟨used, es, rfl, rfl, hd⟩ := h.andLoop hl
    exact ⟨used, rfl, .and hd he⟩

theorem Sound.andLoop_succ (h : Sound n) (hs : Parser.andLoop (n + 1) all ts = .ok (all', r)) :
    ∃ used es, ts = used ++ r ∧ all' = all ++ es ∧ Derives .terms (kindsOf used) es := by
  rw [Parser.andLoop.eq_def] at hs
  dsimp only at hs
  split at hs
  case h_4 =>
    have ⟨(e, ts₁), hu, hl⟩ := Except.bind_eq_ok.mp hs
    obtain ⟨used, rfl, hd⟩ := h.unary hu
    obtain ⟨used', es, rfl, rfl, hd'⟩ := h.andLoop hl
    refine ⟨used ++ used', e :: es, (List.append_assoc ..).symm, by simp, ?_⟩
    rw [kindsOf_append]
    exact .term hd hd'
  all_goals
    cases hs
    exact ⟨[], [], rfl, (List.append_nil _).symm, .noTerm⟩

theorem Sound.unary_succ (h : Sound n) (hs : Parser.unary (n + 1) ts = .ok (e, r)) :
    ∃ used, ts = used ++ r ∧ Derives .unary (kindsOf used) [e] := by
  rw [Parser.unary.eq_def] at hs
  dsimp only at hs
  split at hs
  case h_1 pos ts =>
    have ⟨(e, ts₁), hu, hs⟩ := Except.bind_eq_ok.mp hs
    cases hs
    obtain ⟨used, rfl, hd⟩ := h.unary hu
    exact ⟨⟨.minus, pos⟩ :: used, rfl, .not hd⟩
  case h_2 =>
    have ⟨used, he, hd⟩ := h.atom hs
    exact ⟨used, he, .plain hd⟩

theorem Sound.atom_succ (h : Sound n) (hs : Parser.atom (n + 1) ts = .ok (e, r)) :
    ∃ used, ts = used ++ r ∧ Derives .atom (kindsOf used) [e] := by
  rw [Parser.atom.eq_def] at hs
  dsimp only at hs
  split at hs
  case h_1 => cases hs
  case h_2 pos ts =>
    have ⟨(inner, ts₁), ho, hs⟩ := Except.bind_eq_ok.mp hs
    dsimp only at hs
    split at hs
    case h_1 pos' ts₂ =>
      cases hs
      obtain ⟨used, rfl, hd⟩ := h.or ho
      refine ⟨⟨.open, pos⟩ :: (used ++ [⟨.close, pos'⟩]), by simp, ?_⟩
      have := Derives.group hd
      rwa [show [Kind.close] = kindsOf [⟨.close, pos'⟩] from rfl, ← kindsOf_append] at this
    case h_2 => cases hs
  case h_3 q pos ts => cases hs; exact ⟨[⟨.quoted q, pos⟩], rfl, .phrase⟩
  case h_4 w pos ts => cases hs; exact ⟨[⟨.word w, pos⟩], rfl, .text⟩
  case h_5 field pos rest =>
    split at hs
    case h_1 value pos' ts =>
      split at hs
      case h_1 hf => cases hs; exact ⟨[⟨.field field, pos⟩, ⟨.word value, pos'⟩], rfl, .fieldWord hf⟩
      all_goals cases hs
    case h_2 value pos' ts =>
      split at hs
      case h_1 hf => cases hs; exact ⟨[⟨.field field, pos⟩, ⟨.quoted value, pos'⟩], rfl, .fieldQuoted hf⟩
      all_goals cases hs
    case h_3 => cases hs
  case h_6 => cases hs

theorem sound (n : Nat) : Sound n := by
  induction n
  case zero => constructor <;> intros <;> contradiction
  case succ n ih => exact ⟨ih.or_succ, ih.orLoop_succ, ih.and_succ, ih.andLoop_succ, ih.unary_succ, ih.atom_succ⟩

-- What may follow the tokens of a rule, so that the loop that takes them ends there.
def Ends : Rule → List Token → Prop
  | .or, rest | .alternatives, rest => ∀ t ∈ rest.head?, t.kind = .close
  | .and, rest | .terms, rest       => ∀ t ∈ rest.head?, t.kind = .close ∨ t.kind = .or
  | .unary, _ | .atom, _            => True

-- How the tokens of a rule start.
def Starts : Rule → List Kind → Prop
  | .alternatives, ks => ∀ k ∈ ks.head?, k = .or
  | .unary, ks        => ∃ k ∈ ks.head?, k ≠ .or ∧ k ≠ .close
  | .atom, ks         => ∃ k ∈ ks.head?, k ≠ .or ∧ k ≠ .close ∧ k ≠ .minus
  | _, _              => True

theorem starts (h : Derives rule ks es) : Starts rule ks := by
  cases h
  case or | and | noTerm | term => trivial
  case noAlternative            => exact fun _ hk => nomatch hk
  case alternative              => exact fun _ hk => (Option.some.inj hk).symm
  case not                      => exact ⟨.minus, rfl, nofun, nofun⟩
  case plain h =>
    cases h
    case group => exact ⟨.open, rfl, nofun, nofun⟩
    all_goals exact ⟨_, rfl, nofun, nofun⟩
  case group => exact ⟨.open, rfl, nofun, nofun, nofun⟩
  all_goals exact ⟨_, rfl, nofun, nofun, nofun⟩

-- The fuel that a rule needs for a number of tokens.
def enough (tokens : Nat) : Rule → Nat
  | .or           => 5 * tokens + 5
  | .alternatives => 5 * tokens + 1
  | .and          => 5 * tokens + 4
  | .terms        => 5 * tokens + 3
  | .unary        => 5 * tokens + 2
  | .atom         => 5 * tokens + 1

-- The function of a rule returns trees for tokens that are followed by others.
def Returns (n : Nat) (ts rest : List Token) : Rule → List SearchExpr → Prop
  | .alternatives, es => ∀ any, orLoop n any (ts ++ rest) = .ok (any ++ es, rest)
  | .terms, es        => ∀ all, andLoop n all (ts ++ rest) = .ok (all ++ es, rest)
  | .or, [e]          => or n (ts ++ rest) = .ok (e, rest)
  | .and, [e]         => and n (ts ++ rest) = .ok (e, rest)
  | .unary, [e]       => unary n (ts ++ rest) = .ok (e, rest)
  | .atom, [e]        => atom n (ts ++ rest) = .ok (e, rest)
  | _, _              => False

def Complete (rule : Rule) (ks : List Kind) (es : List SearchExpr) : Prop :=
  ∀ ts rest n, kindsOf ts = ks → Ends rule rest → enough (ts ++ rest).length rule ≤ n + 1 →
    Returns (n + 1) ts rest rule es

theorem kindsOf_eq_append (h : kindsOf ts = ks ++ ks') :
    ∃ us us', ts = us ++ us' ∧ kindsOf us = ks ∧ kindsOf us' = ks' :=
  List.map_eq_append_iff.mp h

theorem kindsOf_eq_cons (h : kindsOf ts = k :: ks) : ∃ pos us, ts = ⟨k, pos⟩ :: us ∧ kindsOf us = ks := by
  obtain ⟨⟨_, pos⟩, us, rfl, rfl, hu⟩ := List.map_eq_cons_iff.mp h
  exact ⟨pos, us, rfl, hu⟩

theorem Ends.alternatives (h : Derives .alternatives (kindsOf ts) es) (he : Ends .or rest) :
    Ends .and (ts ++ rest) := by
  cases ts
  case nil       => exact fun t ht => .inl (he t ht)
  case cons t ts =>
    intro t' ht'
    obtain rfl := Option.some.inj ht'
    exact .inr (starts h t.kind rfl)

theorem Complete.or (ha : Complete .and ks [e]) (hl : Complete .alternatives ks' es)
    (hd : Derives .alternatives ks' es) : Complete .or (ks ++ ks') [collectOr (e :: es)] := by
  intro ts rest n ht he hn
  obtain ⟨us, us', rfl, rfl, rfl⟩ := kindsOf_eq_append ht
  simp only [enough, List.length_append] at hn
  obtain ⟨m, rfl⟩ : ∃ m, n = m + 1 := ⟨n - 1, by omega⟩
  have hand := ha us (us' ++ rest) m rfl (he.alternatives hd)
    (by simp only [enough, List.length_append]; omega)
  have hloop := hl us' rest m rfl he (by simp only [enough, List.length_append]; omega) [e]
  change Parser.or _ _ = _
  rw [List.append_assoc, Parser.or, hand]
  exact Except.bind_eq_ok.mpr ⟨_, rfl, Except.bind_eq_ok.mpr ⟨_, hloop, rfl⟩⟩

theorem Complete.noAlternative : Complete .alternatives [] [] := by
  intro ts rest n ht he hn any
  rw [List.map_eq_nil_iff.mp ht, Parser.orLoop.eq_def, List.nil_append, List.append_nil]
  cases rest
  case nil       => rfl
  case cons t ts =>
    obtain ⟨k, pos⟩ := t
    have hk : k = .close := he ⟨k, pos⟩ rfl
    subst hk
    rfl

theorem Complete.alternative (ha : Complete .and ks [e]) (hl : Complete .alternatives ks' es)
    (hd : Derives .alternatives ks' es) : Complete .alternatives (.or :: (ks ++ ks')) (e :: es) := by
  intro ts rest n ht he hn any
  obtain ⟨pos, us, rfl, hu⟩ := kindsOf_eq_cons ht
  obtain ⟨us, us', rfl, rfl, rfl⟩ := kindsOf_eq_append hu
  simp only [enough, List.length_append, List.length_cons] at hn
  obtain ⟨m, rfl⟩ : ∃ m, n = m + 1 := ⟨n - 1, by omega⟩
  have hand := ha us (us' ++ rest) m rfl (Ends.alternatives hd he)
    (by simp only [enough, List.length_append]; omega)
  have hloop := hl us' rest m rfl he (by simp only [enough, List.length_append]; omega) (any ++ [e])
  rw [List.cons_append, List.append_assoc, Parser.orLoop, hand, List.append_cons]
  exact Except.bind_eq_ok.mpr ⟨_, rfl, hloop⟩

theorem Complete.and (hl : Complete .terms ks es) (hes : es ≠ []) : Complete .and ks [collectAnd es] := by
  intro ts rest n ht he hn
  simp only [enough] at hn
  obtain ⟨m, rfl⟩ : ∃ m, n = m + 1 := ⟨n - 1, by omega⟩
  have hloop := hl ts rest m ht he (by simp only [enough]; omega) []
  change Parser.and _ _ = _
  rw [Parser.and, hloop]
  refine Except.bind_eq_ok.mpr ⟨_, rfl, ?_⟩
  dsimp only
  rw [List.nil_append, if_neg hes]
  rfl

theorem Complete.noTerm : Complete .terms [] [] := by
  intro ts rest n ht he hn all
  rw [List.map_eq_nil_iff.mp ht, Parser.andLoop.eq_def, List.nil_append, List.append_nil]
  cases rest
  case nil       => rfl
  case cons t ts =>
    obtain ⟨k, pos⟩ := t
    have hk : k = .close ∨ k = .or := he ⟨k, pos⟩ rfl
    obtain rfl | rfl := hk <;> rfl

theorem Complete.term (hu : Complete .unary ks [e]) (hl : Complete .terms ks' es) (hd : Derives .unary ks [e]) :
    Complete .terms (ks ++ ks') (e :: es) := by
  intro ts rest n ht he hn all
  obtain ⟨us, us', rfl, rfl, rfl⟩ := kindsOf_eq_append ht
  obtain ⟨k, hk, notOr, notClose⟩ := starts hd
  obtain ⟨t, us, rfl⟩ : ∃ t us₁, us = t :: us₁ := by
    cases us
    case nil       => cases hk
    case cons t us => exact ⟨t, us, rfl⟩
  obtain rfl : t.kind = k := Option.some.inj hk
  simp only [enough, List.length_append, List.length_cons] at hn
  obtain ⟨m, rfl⟩ : ∃ m, n = m + 1 := ⟨n - 1, by omega⟩
  have hunary := hu (t :: us) (us' ++ rest) m rfl trivial
    (by simp only [enough, List.length_append, List.length_cons]; omega)
  have hloop := hl us' rest m rfl he (by simp only [enough, List.length_append]; omega) (all ++ [e])
  rw [List.append_assoc, Parser.andLoop, List.append_cons]
  · exact Except.bind_eq_ok.mpr ⟨_, hunary, hloop⟩
  · exact fun h => nomatch h
  · exact fun pos ts h => notOr (congrArg Token.kind (List.cons.inj h).left)
  · exact fun pos ts h => notClose (congrArg Token.kind (List.cons.inj h).left)

theorem Complete.not (hu : Complete .unary ks [e]) : Complete .unary (.minus :: ks) [.not e] := by
  intro ts rest n ht he hn
  obtain ⟨pos, us, rfl, hk⟩ := kindsOf_eq_cons ht
  simp only [enough, List.length_append, List.length_cons] at hn
  obtain ⟨m, rfl⟩ : ∃ m, n = m + 1 := ⟨n - 1, by omega⟩
  have hunary := hu us rest m hk trivial (by simp only [enough, List.length_append]; omega)
  exact Except.bind_eq_ok.mpr ⟨_, hunary, rfl⟩

theorem Complete.plain (ha : Complete .atom ks [e]) (hd : Derives .atom ks [e]) : Complete .unary ks [e] := by
  intro ts rest n ht he hn
  obtain ⟨k, hk, _, _, notMinus⟩ := starts hd
  simp only [enough] at hn
  obtain ⟨m, rfl⟩ : ∃ m, n = m + 1 := ⟨n - 1, by omega⟩
  have hatom := ha ts rest m ht trivial (by simp only [enough]; omega)
  change Parser.unary _ _ = _
  rw [Parser.unary]
  · exact hatom
  · intro pos ts' h
    cases ts
    case nil       => rw [← ht] at hk; cases hk
    case cons t ts =>
      rw [← ht] at hk
      obtain rfl : t.kind = k := Option.some.inj hk
      exact notMinus (congrArg Token.kind (List.cons.inj h).left)

theorem Complete.group (ho : Complete .or ks [e]) : Complete .atom (.open :: (ks ++ [.close])) [e] := by
  intro ts rest n ht he hn
  obtain ⟨pos, us, rfl, hu⟩ := kindsOf_eq_cons ht
  obtain ⟨us, us', rfl, hk, hc⟩ := kindsOf_eq_append hu
  obtain ⟨pos', vs, rfl, hv⟩ := kindsOf_eq_cons hc
  obtain rfl := List.map_eq_nil_iff.mp hv
  simp only [enough, List.length_append, List.length_cons, List.length_nil] at hn
  obtain ⟨m, rfl⟩ : ∃ m, n = m + 1 := ⟨n - 1, by omega⟩
  have hor := ho us (⟨.close, pos'⟩ :: rest) m hk (fun _ ht => Option.some.inj ht ▸ rfl)
    (by simp only [enough, List.length_append, List.length_cons]; omega)
  change Parser.atom _ _ = _
  rw [List.cons_append, List.append_assoc, Parser.atom]
  exact Except.bind_eq_ok.mpr ⟨_, hor, rfl⟩

theorem Complete.phrase : Complete .atom [.quoted q] [.phrase q] := by
  intro ts rest n ht _ _
  obtain ⟨pos, us, rfl, hu⟩ := kindsOf_eq_cons ht
  obtain rfl := List.map_eq_nil_iff.mp hu
  rfl

theorem Complete.text : Complete .atom [.word w] [.text w] := by
  intro ts rest n ht _ _
  obtain ⟨pos, us, rfl, hu⟩ := kindsOf_eq_cons ht
  obtain rfl := List.map_eq_nil_iff.mp hu
  rfl

theorem Complete.field (hf : fieldExpr f v = .ok e) (hk : k = .word v ∨ k = .quoted v) :
    Complete .atom [.field f, k] [e] := by
  intro ts rest n ht _ _
  obtain ⟨pos, us, rfl, hu⟩ := kindsOf_eq_cons ht
  obtain ⟨pos', vs, rfl, hv⟩ := kindsOf_eq_cons hu
  obtain rfl := List.map_eq_nil_iff.mp hv
  change Parser.atom _ _ = _
  obtain rfl | rfl := hk <;> simp only [List.cons_append, List.nil_append, Parser.atom, hf] <;> rfl

theorem complete (h : Derives rule ks es) : Complete rule ks es := by
  induction h
  case or hd ha hl          => exact ha.or hl hd
  case noAlternative        => exact .noAlternative
  case alternative hd ha hl => exact ha.alternative hl hd
  case and hes hl           => exact hl.and hes
  case noTerm               => exact .noTerm
  case term hd _ hu hl      => exact hu.term hl hd
  case not hu               => exact hu.not
  case plain hd ha          => exact ha.plain hd
  case group ho             => exact ho.group
  case phrase               => exact .phrase
  case text                 => exact .text
  case fieldWord hf         => exact .field hf (.inl rfl)
  case fieldQuoted hf       => exact .field hf (.inr rfl)

theorem fieldExpr_outOfFuel : fieldExpr f v ≠ .error .outOfFuel := by
  have lift : ∀ {α} {x : Except ParseProblem α}, Fault.lift x ≠ .error .outOfFuel := by
    intro α x h
    cases x <;> cases h
  have age : parseAge v ≠ .error .outOfFuel := by
    intro h
    rw [parseAge] at h
    repeat' split at h
    all_goals cases h
  intro h
  rw [fieldExpr.eq_def] at h
  dsimp only at h
  split at h
  case h_11 | h_12 | h_15 | h_16 =>
    obtain h | ⟨_, _, h⟩ := Except.bind_eq_error.mp h
    · exact lift h
    · cases h
  case h_13 | h_14 =>
    obtain h | ⟨_, _, h⟩ := Except.bind_eq_error.mp h
    · exact age h
    · cases h
  case h_8 | h_9 | h_10 => split at h <;> cases h
  all_goals cases h

-- There is enough fuel for every rule.
structure Total (n : Nat) : Prop where
  or : ∀ {ts}, enough ts.length .or ≤ n → or n ts ≠ .error .outOfFuel
  orLoop : ∀ {ts any}, enough ts.length .alternatives ≤ n → orLoop n any ts ≠ .error .outOfFuel
  and : ∀ {ts}, enough ts.length .and ≤ n → and n ts ≠ .error .outOfFuel
  andLoop : ∀ {ts all}, enough ts.length .terms ≤ n → andLoop n all ts ≠ .error .outOfFuel
  unary : ∀ {ts}, enough ts.length .unary ≤ n → unary n ts ≠ .error .outOfFuel
  atom : ∀ {ts}, enough ts.length .atom ≤ n → atom n ts ≠ .error .outOfFuel

theorem Sound.and_shorter (h : Sound n) (ha : Parser.and n ts = .ok (e, r)) : r.length ≤ ts.length := by
  obtain ⟨used, rfl, _⟩ := h.and ha
  simp

theorem Sound.unary_shorter (h : Sound n) (hu : Parser.unary n ts = .ok (e, r)) : r.length < ts.length := by
  obtain ⟨used, rfl, hd⟩ := h.unary hu
  obtain ⟨k, hk, _⟩ := starts hd
  cases used
  case nil  => cases hk
  case cons => simp only [List.cons_append, List.length_cons, List.length_append]; omega

theorem total (n : Nat) : Total n := by
  induction n
  case zero => constructor <;> intros <;> simp only [enough] at * <;> omega
  case succ n ih =>
    constructor
    case or =>
      intro ts hn h
      simp only [enough] at hn
      rw [Parser.or] at h
      obtain h | ⟨⟨e, ts₁⟩, ha, h⟩ := Except.bind_eq_error.mp h
      · exact ih.and (by simp only [enough]; omega) h
      have := (sound n).and_shorter ha
      obtain h | ⟨_, _, h⟩ := Except.bind_eq_error.mp h
      · exact ih.orLoop (by simp only [enough]; omega) h
      · cases h
    case orLoop =>
      intro ts any hn h
      simp only [enough] at hn
      rw [Parser.orLoop.eq_def] at h
      dsimp only at h
      split at h
      case h_1 pos ts =>
        rw [List.length_cons] at hn
        obtain h | ⟨⟨e, ts₁⟩, ha, h⟩ := Except.bind_eq_error.mp h
        · exact ih.and (by simp only [enough]; omega) h
        · have := (sound n).and_shorter ha
          exact ih.orLoop (by simp only [enough]; omega) h
      case h_2 => cases h
    case and =>
      intro ts hn h
      simp only [enough] at hn
      rw [Parser.and] at h
      obtain h | ⟨_, _, h⟩ := Except.bind_eq_error.mp h
      · exact ih.andLoop (by simp only [enough]; omega) h
      · dsimp only at h
        split at h <;> cases h
    case andLoop =>
      intro ts all hn h
      simp only [enough] at hn
      rw [Parser.andLoop.eq_def] at h
      dsimp only at h
      split at h
      case h_4 =>
        obtain h | ⟨⟨e, ts₁⟩, hu, h⟩ := Except.bind_eq_error.mp h
        · exact ih.unary (by simp only [enough]; omega) h
        · have := (sound n).unary_shorter hu
          exact ih.andLoop (by simp only [enough]; omega) h
      all_goals cases h
    case unary =>
      intro ts hn h
      simp only [enough] at hn
      rw [Parser.unary.eq_def] at h
      dsimp only at h
      split at h
      case h_1 pos ts =>
        rw [List.length_cons] at hn
        obtain h | ⟨_, _, h⟩ := Except.bind_eq_error.mp h
        · exact ih.unary (by simp only [enough]; omega) h
        · cases h
      case h_2 => exact ih.atom (by simp only [enough]; omega) h
    case atom =>
      intro ts hn h
      simp only [enough] at hn
      rw [Parser.atom.eq_def] at h
      dsimp only at h
      split at h
      case h_2 pos ts =>
        rw [List.length_cons] at hn
        obtain h | ⟨_, _, h⟩ := Except.bind_eq_error.mp h
        · exact ih.or (by simp only [enough]; omega) h
        · split at h <;> cases h
      case h_5 field pos rest =>
        split at h
        case h_3 => cases h
        all_goals
          split at h
          case h_4 hf => exact fieldExpr_outOfFuel hf
          all_goals cases h
      all_goals cases h

end Parser

-- The parser returns exactly the tree that the grammar assigns.
theorem parse_iff : parse input = .ok e ↔ Assigns input e := by
  constructor
  · intro h
    rw [parse] at h
    split at h
    case h_1 => cases h
    case h_2 ht => cases h; exact ⟨[], tokenize_iff.mp ⟨[], ht, rfl⟩, .inl ⟨rfl, rfl⟩⟩
    case h_3 ts _ ht =>
      have ⟨(expr, rest), ho, h⟩ := Except.bind_eq_ok.mp h
      dsimp only at h
      split at h
      case h_1 =>
        cases h
        obtain ⟨used, rfl, hd⟩ := (Parser.sound _).or ho
        rw [List.append_nil] at ht
        exact ⟨kindsOf used, tokenize_iff.mp ⟨used, ht, rfl⟩, .inr hd⟩
      case h_2 => cases h
  · rintro ⟨ks, hl, h⟩
    obtain ⟨ts, ht, rfl⟩ := tokenize_iff.mpr hl
    rw [parse, ht]
    obtain ⟨hk, rfl⟩ | hd := h
    · obtain rfl := List.map_eq_nil_iff.mp hk
      rfl
    · have hor := Parser.complete hd ts [] (5 * ts.length + 4) rfl (fun _ h => nomatch h)
        (by simp only [Parser.enough, List.append_nil]; omega)
      change Parser.or _ _ = _ at hor
      rw [List.append_nil] at hor
      cases ts
      case nil       => cases hor
      case cons t ts => exact Except.bind_eq_ok.mpr ⟨_, hor, rfl⟩

-- The grammar is not ambiguous.
theorem Assigns.unique (h : Assigns input e) (h' : Assigns input e') : e = e' :=
  Except.ok.inj ((parse_iff.mpr h).symm.trans (parse_iff.mpr h'))

theorem parse_outOfFuel : parse input ≠ .error .outOfFuel := by
  intro h
  rw [parse] at h
  split at h
  case h_1 | h_2 => cases h
  case h_3 =>
    obtain h | ⟨_, _, h⟩ := Except.bind_eq_error.mp h
    · exact (Parser.total _).or le_rfl h
    · dsimp only at h
      split at h <;> cases h

end Kaluta
