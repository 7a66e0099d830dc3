import Kaluta.Search.Checked

namespace Kaluta

def IsAge (field : String) : Prop :=
  field = "newer_than" ∨ field = "older_than"

-- The last byte of the value is a character.
def EndsInByte (value : String) : Prop :=
  ∀ c ∈ value.toList.getLast?, c.utf8Size = 1

theorem parseAge_eq_panic : parseAge value = .error .panic ↔ ¬EndsInByte value := by
  rw [parseAge, EndsInByte]
  cases value.toList.getLast?
  case none => simp [throw, throwThe, MonadExceptOf.throw]
  case some unit =>
    by_cases one : unit.utf8Size = 1
    case neg => simp [one, throw, throwThe, MonadExceptOf.throw]
    case pos =>
      simp only [one, ne_eq, not_true, if_false, Option.mem_def, Option.some.injEq, forall_eq', iff_false]
      intro h
      repeat' split at h
      all_goals cases h

theorem lift_ne_panic {x : Except ParseProblem α} : Fault.lift x ≠ .error .panic := by
  intro h
  cases x <;> cases h

theorem fieldExpr_eq_panic : fieldExpr f v = .error .panic ↔ IsAge f ∧ ¬EndsInByte v := by
  have age {g : UInt32 → SearchExpr} :
      (do return g (← parseAge v) : Except (Fault ParseProblem) SearchExpr) = .error .panic ↔ ¬EndsInByte v := by
    rw [← parseAge_eq_panic]
    cases parseAge v
    case error e => exact ⟨fun h => congrArg Except.error (Except.error.inj h), fun h => congrArg Except.error (Except.error.inj h)⟩
    case ok      => exact ⟨nofun, nofun⟩
  constructor
  · intro h
    rw [fieldExpr.eq_def] at h
    dsimp only at h
    split at h
    case h_13 => exact ⟨.inl rfl, age.mp h⟩
    case h_14 => exact ⟨.inr rfl, age.mp h⟩
    case h_11 | h_12 | h_15 | h_16 =>
      obtain h | ⟨_, _, h⟩ := Except.bind_eq_error.mp h
      · exact absurd h lift_ne_panic
      · cases h
    case h_8 | h_9 | h_10 => split at h <;> cases h
    all_goals cases h
  · rintro ⟨rfl | rfl, h⟩
    · exact age.mpr h
    · exact age.mpr h

-- Every age that is reached without a mistake before it ends in a byte. `term` says whether a term is there to go on from.
def AgesEndInBytes (depth : Nat) (term : Bool) : List Kind → Prop
  | .field f :: .word v :: ks | .field f :: .quoted v :: ks =>
    (IsAge f → EndsInByte v) ∧ ((∃ e, fieldExpr f v = .ok e) → AgesEndInBytes depth true ks)
  | .word _ :: ks | .quoted _ :: ks => AgesEndInBytes depth true ks
  | .minus :: ks  => AgesEndInBytes depth false ks
  | .open :: ks   => AgesEndInBytes (depth + 1) false ks
  | .or :: ks     => term = true → AgesEndInBytes depth false ks
  | .close :: ks  => term = true → 0 < depth → AgesEndInBytes (depth - 1) true ks
  | _             => True

-- Only an `or` and a `)` need a term before them.
theorem agesEndInBytes_term {ks : List Kind} (h : ∀ k ∈ ks.head?, k ≠ .close ∧ k ≠ .or) :
    AgesEndInBytes depth term ks ↔ AgesEndInBytes depth false ks := by
  cases ks
  case nil       => exact Iff.rfl
  case cons k ks =>
    have ⟨close, or⟩ := h k rfl
    cases k
    case or     => exact absurd rfl or
    case close  => exact absurd rfl close
    case field  => rcases ks with _ | ⟨_ | _ | _ | _ | _ | _ | _, ks⟩ <;> exact Iff.rfl
    all_goals exact Iff.rfl

namespace Parser

theorem agesEndInBytes_ends {ts : List Token} (h : Ends .and ts) : AgesEndInBytes depth false (kindsOf ts) := by
  cases ts
  case nil       => trivial
  case cons t ts =>
    obtain ⟨k, pos⟩ := t
    have stops : k = .close ∨ k = .or := h _ rfl
    obtain rfl | rfl := stops <;> exact nofun

-- What a result says about the ages that were to be read: none was wrong where there is an error, one was where there is
-- a panic, and where something is returned it depends on the ages that are left.
def Follows (ages : Prop) (x : Parsed (α × List Token)) (left : α → List Token → Prop) (ends : List Token → Prop) : Prop :=
  match x with
  | .ok (a, rest)       => (ages ↔ left a rest) ∧ ends rest
  | .error (.error _)   => ages
  | .error .panic       => ¬ages
  | .error .outOfFuel   => True

theorem Follows.bind {x : Parsed (α × List Token)} {f : α × List Token → Parsed (β × List Token)}
    (h : Follows ages x left ends) (hf : ∀ a rest, ends rest → Follows (left a rest) (f (a, rest)) left' ends') :
    Follows ages (x >>= f) left' ends' := by
  rcases x with (_ | _ | _) | ⟨a, rest⟩
  case ok =>
    have ⟨iff, ends⟩ := h
    rw [propext iff]
    exact hf a rest ends
  all_goals exact h

structure Walked (n : Nat) : Prop where
  or : ∀ depth ts, Follows (AgesEndInBytes depth false (kindsOf ts)) (or n ts)
    (fun _ rest => AgesEndInBytes depth true (kindsOf rest)) (Ends .or)
  orLoop : ∀ {depth any ts}, Ends .and ts → Follows (AgesEndInBytes depth true (kindsOf ts)) (orLoop n any ts)
    (fun _ rest => AgesEndInBytes depth true (kindsOf rest)) (Ends .or)
  and : ∀ {depth ts}, Follows (AgesEndInBytes depth false (kindsOf ts)) (and n ts)
    (fun _ rest => AgesEndInBytes depth true (kindsOf rest)) (Ends .and)
  andLoop : ∀ depth (all : List SearchExpr) ts, Follows (AgesEndInBytes depth (all ≠ []) (kindsOf ts)) (andLoop n all ts)
    (fun all rest => AgesEndInBytes depth (all ≠ []) (kindsOf rest)) (Ends .and)
  unary : ∀ {depth ts}, Follows (AgesEndInBytes depth false (kindsOf ts)) (unary n ts)
    (fun _ rest => AgesEndInBytes depth true (kindsOf rest)) fun _ => True
  atom : ∀ {depth ts}, (∀ t ∈ ts.head?, t.kind ≠ .minus) →
    Follows (AgesEndInBytes depth false (kindsOf ts)) (atom n ts)
      (fun _ rest => AgesEndInBytes depth true (kindsOf rest)) fun _ => True

theorem Walked.or_succ (h : Walked n) : Follows (AgesEndInBytes depth false (kindsOf ts)) (Parser.or (n + 1) ts)
    (fun _ rest => AgesEndInBytes depth true (kindsOf rest)) (Ends .or) := by
  rw [Parser.or]
  refine h.and.bind fun first rest ends => ?_
  exact (h.orLoop ends).bind fun any rest ends => ⟨Iff.rfl, ends⟩

theorem Walked.orLoop_succ (h : Walked n) (ends : Ends .and ts) :
    Follows (AgesEndInBytes depth true (kindsOf ts)) (Parser.orLoop (n + 1) any ts)
      (fun _ rest => AgesEndInBytes depth true (kindsOf rest)) (Ends .or) := by
  rw [Parser.orLoop.eq_def]
  dsimp only
  split
  case h_1 pos ts =>
    have walk : AgesEndInBytes depth true (kindsOf (⟨.or, pos⟩ :: ts)) ↔ AgesEndInBytes depth false (kindsOf ts) :=
      forall_prop_of_true rfl
    rw [propext walk]
    exact h.and.bind fun e rest ends => h.orLoop ends
  case h_2 _ other =>
    refine ⟨Iff.rfl, fun t ht => (ends t ht).resolve_right fun isOr => ?_⟩
    cases ts
    case nil       => cases ht
    case cons t ts =>
      obtain ⟨k, pos⟩ := t
      obtain rfl := Option.some.inj ht
      cases isOr
      exact other pos ts rfl

theorem Walked.and_succ (h : Walked n) : Follows (AgesEndInBytes depth false (kindsOf ts)) (Parser.and (n + 1) ts)
    (fun _ rest => AgesEndInBytes depth true (kindsOf rest)) (Ends .and) := by
  rw [Parser.and]
  refine Follows.bind (h.andLoop depth [] ts) fun all rest ends => ?_
  dsimp only
  split
  case isTrue none =>
    subst none
    exact agesEndInBytes_ends ends
  case isFalse some =>
    rw [decide_eq_true some]
    exact ⟨Iff.rfl, ends⟩

theorem Walked.andLoop_succ (h : Walked n) : Follows (AgesEndInBytes depth (all ≠ []) (kindsOf ts))
    (Parser.andLoop (n + 1) all ts) (fun all rest => AgesEndInBytes depth (all ≠ []) (kindsOf rest)) (Ends .and) := by
  rw [Parser.andLoop.eq_def]
  dsimp only
  split
  case h_1 => exact ⟨Iff.rfl, nofun⟩
  case h_2 => exact ⟨Iff.rfl, fun t ht => .inr (Option.some.inj ht ▸ rfl)⟩
  case h_3 => exact ⟨Iff.rfl, fun t ht => .inl (Option.some.inj ht ▸ rfl)⟩
  case h_4 _ some notOr notClose =>
    have starts : ∀ k ∈ (kindsOf ts).head?, k ≠ .close ∧ k ≠ .or := by
      cases ts
      case nil       => exact nofun
      case cons t ts =>
        obtain ⟨k, pos⟩ := t
        intro k' hk
        obtain rfl := Option.some.inj hk
        exact ⟨fun eq => notClose pos ts (eq ▸ rfl), fun eq => notOr pos ts (eq ▸ rfl)⟩
    rw [propext (agesEndInBytes_term starts)]
    refine h.unary.bind fun e rest _ => ?_
    have := h.andLoop depth (all ++ [e]) rest
    rwa [decide_eq_true (List.concat_ne_nil e all)] at this

theorem Walked.unary_succ (h : Walked n) : Follows (AgesEndInBytes depth false (kindsOf ts)) (Parser.unary (n + 1) ts)
    (fun _ rest => AgesEndInBytes depth true (kindsOf rest)) fun _ => True := by
  rw [Parser.unary.eq_def]
  dsimp only
  split
  case h_1 pos ts => exact h.unary.bind fun e rest _ => ⟨Iff.rfl, trivial⟩
  case h_2 _ other =>
    refine h.atom fun t ht isMinus => ?_
    cases ts
    case nil       => cases ht
    case cons t ts =>
      obtain ⟨k, pos⟩ := t
      obtain rfl := Option.some.inj ht
      cases isMinus
      exact other pos ts rfl

-- The value of a field.
theorem follows_field (f v : String) (pos : Nat) (ts : List Token) (left : List Token → Prop) :
    Follows ((IsAge f → EndsInByte v) ∧ ((∃ e, fieldExpr f v = .ok e) → left ts))
      (match fieldExpr f v with
      | .ok e                   => pure (e, ts)
      | .error (.error message) => fails message pos
      | .error .panic           => .error .panic
      | .error .outOfFuel       => .error .outOfFuel : Parsed (SearchExpr × List Token))
      (fun _ rest => left rest) fun _ => True := by
  have wrong : fieldExpr f v = .error .panic ↔ ¬(IsAge f → EndsInByte v) := by rw [fieldExpr_eq_panic, Classical.not_imp]
  rcases hx : fieldExpr f v with (_ | _ | _) | e
  case error.panic => exact fun h => wrong.mp hx h.left
  case error.outOfFuel => trivial
  case error.error =>
    refine ⟨not_not.mp fun bad => ?_, nofun⟩
    cases hx.symm.trans (wrong.mpr bad)
  case ok =>
    have right : IsAge f → EndsInByte v := not_not.mp fun bad => by cases hx.symm.trans (wrong.mpr bad)
    exact ⟨⟨fun h => h.right ⟨e, rfl⟩, fun h => ⟨right, fun _ => h⟩⟩, trivial⟩

theorem Walked.atom_succ (h : Walked n) (notMinus : ∀ t ∈ ts.head?, t.kind ≠ .minus) :
    Follows (AgesEndInBytes depth false (kindsOf ts)) (Parser.atom (n + 1) ts)
      (fun _ rest => AgesEndInBytes depth true (kindsOf rest)) fun _ => True := by
  rw [Parser.atom.eq_def]
  dsimp only
  split
  case h_1 => trivial
  case h_2 pos ts =>
    refine (h.or (depth + 1) ts).bind fun inner rest ends => ?_
    dsimp only
    split
    case h_1 pos' ts => exact ⟨⟨fun walk => walk rfl depth.succ_pos, fun walk _ _ => walk⟩, trivial⟩
    case h_2 other =>
      cases rest
      case nil       => trivial
      case cons t ts =>
        obtain ⟨k, pos'⟩ := t
        have isClose : k = .close := ends _ rfl
        exact absurd (isClose ▸ rfl) (other pos' ts)
  case h_3 => exact ⟨Iff.rfl, trivial⟩
  case h_4 => exact ⟨Iff.rfl, trivial⟩
  case h_5 field pos rest =>
    split
    case h_1 value pos' ts => exact follows_field field value pos ts fun rest => AgesEndInBytes depth true (kindsOf rest)
    case h_2 value pos' ts => exact follows_field field value pos ts fun rest => AgesEndInBytes depth true (kindsOf rest)
    case h_3 notWord notQuoted =>
      rcases rest with _ | ⟨⟨_ | _ | _ | _ | _ | _ | _, pos'⟩, ts⟩
      case cons.word => exact absurd rfl (notWord _ pos' ts)
      case cons.quoted => exact absurd rfl (notQuoted _ pos' ts)
      all_goals trivial
  case h_6 k pos ts notOpen notQuoted notWord notField =>
    cases k
    case minus  => exact absurd rfl (notMinus _ rfl)
    case close  => rintro ⟨⟩
    case or     => rintro ⟨⟩
    case «open» => exact absurd rfl notOpen
    case word   => exact absurd rfl (notWord _)
    case quoted => exact absurd rfl (notQuoted _)
    case field  => exact absurd rfl (notField _)

theorem walked (n : Nat) : Walked n := by
  induction n
  case zero => constructor <;> intros <;> trivial
  case succ n ih => exact ⟨fun _ _ => ih.or_succ, ih.orLoop_succ, ih.and_succ, fun _ _ _ => ih.andLoop_succ, ih.unary_succ, ih.atom_succ⟩

end Parser

-- A query panics where an age that it reaches is split inside its last character.
theorem parse_eq_panic : parse input = .error .panic ↔ ∃ ks, Lexes input.toList ks ∧ ¬AgesEndInBytes 0 false ks := by
  have lexes (ks : List Kind) : _ ↔ Lexes input.toList ks := tokenize_iff
  rw [parse]
  split
  case h_1 e he =>
    refine ⟨(by rintro ⟨⟩), ?_⟩
    rintro ⟨ks, hl, -⟩
    obtain ⟨ts, ht, _⟩ := (lexes ks).mpr hl
    cases he.symm.trans ht
  case h_2 he =>
    refine ⟨(by rintro ⟨⟩), ?_⟩
    rintro ⟨ks, hl, walk⟩
    obtain ⟨ts, ht, rfl⟩ := (lexes ks).mpr hl
    cases he.symm.trans ht
    exact absurd trivial walk
  case h_3 ts _ he =>
    have only : (∃ ks, Lexes input.toList ks ∧ ¬AgesEndInBytes 0 false ks) ↔ ¬AgesEndInBytes 0 false (kindsOf ts) := by
      constructor
      · rintro ⟨ks, hl, walk⟩
        obtain ⟨ts', ht, rfl⟩ := (lexes ks).mpr hl
        cases he.symm.trans ht
        exact walk
      · exact fun walk => ⟨kindsOf ts, (lexes _).mp ⟨ts, he, rfl⟩, walk⟩
    have follows := (Parser.walked (5 * ts.length + 5)).or 0 ts
    rw [only]
    rcases ho : Parser.or (5 * ts.length + 5) ts with (_ | _ | _) | ⟨expr, rest⟩ <;> rw [ho] at follows
    case error.panic     => exact iff_of_true rfl follows
    case error.error     => exact iff_of_false (by rintro ⟨⟩) (not_not.mpr follows)
    case error.outOfFuel => exact absurd ho ((Parser.total _).or le_rfl)
    case ok =>
      obtain ⟨walk, ends⟩ := follows
      rcases rest with _ | ⟨⟨k, pos⟩, rest⟩
      case nil  => exact iff_of_false (by rintro ⟨⟩) (not_not.mpr (walk.mpr trivial))
      case cons =>
        have isClose : k = .close := ends _ rfl
        subst isClose
        exact iff_of_false (by rintro ⟨⟩) (not_not.mpr (walk.mpr fun _ h => absurd h (lt_irrefl 0)))

-- The query returns a tree or an error exactly when no age that it reaches ends in a character of more bytes. The fields
-- go no other wrong step: no other slice is inside a character, and no operation overflows.
theorem parse_returns_iff (input : String) :
    (parse input ≠ .error .panic ↔ ∀ ks, Lexes input.toList ks → AgesEndInBytes 0 false ks) ∧
      ∀ value, parseAgeAt value = parseAge value ∧ parseSizeAt value = Fault.lift (parseSize value) ∧
        parseDateAt value = Fault.lift (parseDate value) := by
  refine ⟨?_, fun value => ⟨parseAgeAt_eq value, parseSizeAt_eq value, parseDateAt_eq value⟩⟩
  rw [ne_eq, parse_eq_panic]
  simp only [not_exists, not_and, not_not]

-- An age with a unit that is no letter of ASCII.
theorem parse_panics : parse "newer_than:7日" = .error .panic := by
  refine parse_eq_panic.mpr ⟨[.field (asciiLower "newer_than"), .word (.ofList ['7', '日'])], ?_, fun walk => ?_⟩
  case refine_1 =>
    have word : IsWord "newer_than:7日".toList [] := ⟨by decide, List.all_eq_true.mp (by decide), nofun, by decide⟩
    have lexes := Lexes.fieldWord (f := "newer_than") (v := ['7', '日']) word (by decide) (by decide) .nil
    rwa [List.append_nil] at lexes
  case refine_2 =>
    have ends := walk.left (.inl (by decide)) '日' (by decide)
    exact absurd ends (by decide)

end Kaluta
