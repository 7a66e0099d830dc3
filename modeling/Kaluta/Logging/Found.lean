import Kaluta.Logging.Scrub
import Mathlib.Data.Bool.AllAny
import Mathlib.Data.List.TakeWhile

-- What the loop over a text finds at each place, and what holds of all of it.
namespace Kaluta.Logging

variable {past rest chunk left : List Char} {c : Char} {n : Nat}

section Chars

theorem alphanum_range (h : c.isAlphanum) :
    (65 ≤ c.toNat ∧ c.toNat ≤ 90) ∨ (97 ≤ c.toNat ∧ c.toNat ≤ 122) ∨ (48 ≤ c.toNat ∧ c.toNat ≤ 57) := by
  change ((decide ('A'.val ≤ c.val ∧ c.val ≤ 'Z'.val) || (decide ('a'.val ≤ c.val) && decide (c.val ≤ 'z'.val))) ||
    (decide ('0'.val ≤ c.val) && decide (c.val ≤ '9'.val))) = true at h
  simp only [Bool.or_eq_true, Bool.and_eq_true, decide_eq_true_eq, UInt32.le_iff_toNat_le] at h
  change ((65 ≤ c.toNat ∧ c.toNat ≤ 90) ∨ (97 ≤ c.toNat ∧ c.toNat ≤ 122)) ∨ (48 ≤ c.toNat ∧ c.toNat ≤ 57) at h
  exact or_assoc.mp h

-- A character of one of the kinds: a letter or a digit, or one of a few others.
theorem kind_imp {extra : List Char} {P : Char → Prop} (h : (c.isAlphanum || extra.contains c) = true)
    (alphanum : c.isAlphanum → P c) (others : ∀ c ∈ extra, P c) : P c := by
  rcases Bool.or_eq_true_iff.mp h with h | h
  · exact alphanum h
  · exact others c (List.contains_iff_mem.mp h)

theorem isToken_of_isDomain (h : isDomain c) : isToken c :=
  kind_imp (P := (isToken ·)) h (by simp +contextual [isToken]) (List.all_iff_forall_prop.mp (by decide))

theorem isLocal_of_isToken (h : isToken c) : isLocal c :=
  kind_imp (P := (isLocal ·)) h (by simp +contextual [isLocal]) (List.all_iff_forall_prop.mp (by decide))

theorem isToken_of_isName (h : isName c) : isToken c :=
  kind_imp (P := (isToken ·)) h (by simp +contextual [isToken]) (List.all_iff_forall_prop.mp (by decide))

theorem not_isDelimiter_of_isLocal (h : isLocal c) : isDelimiter c = false := by
  refine kind_imp (P := (isDelimiter · = false)) h (fun h => ?_) ?_
  · have range := alphanum_range h
    have space : isWhitespace c = false := by
      simp only [isWhitespace, Bool.or_eq_false_iff, Bool.and_eq_false_iff, decide_eq_false_iff_not]
      omega
    have others : ∀ c ∈ "&#)\"'>],".toList, ¬c.isAlphanum := List.all_iff_forall_prop.mp (by decide)
    have other : c ∉ "&#)\"'>],".toList := fun mem => others c mem h
    rw [isDelimiter, space, Bool.false_or]
    simpa using other
  · exact List.all_iff_forall_prop.mp (by decide)

end Chars

def keyAt (past rest : List Char) : Option Found :=
  (accessToken past rest).or (apiKey past rest)

-- What is found with some text behind, how much of the rest it is and what is left.
inductive Finds (past : List Char) : Found → List Char → List Char → Prop
  | key {key left : List Char} : startsWord past → 5 ≤ key.length → (∀ c ∈ key, isToken c) →
    (∀ c ∈ left.head?, isToken c = false) → keyAt past (key ++ left) = some (.token key.length) →
    Finds past (.token key.length) key left
  | refresh {run left : List Char} : 20 ≤ run.length → (∀ c ∈ run, isToken c) → (∀ c ∈ left.head?, isToken c = false) →
    refreshToken past ("1//".toList ++ (run ++ left)) = some (.token (3 + run.length)) →
    Finds past (.token (3 + run.length)) ("1//".toList ++ run) left
  | param {c : Char} {name value left : List Char} : c = '?' ∨ c = '&' → (∀ c ∈ name, isName c) →
    String.ofList (name.map Char.toLower) ∈ SIGNED_QUERY → (∀ c ∈ value, isDelimiter c = false) →
    (∀ c ∈ left.head?, isDelimiter c) →
    signedParam ((c :: name ++ '=' :: value) ++ left) = some (.param (name.length + 2) value.length) →
    Finds past (.param (name.length + 2) value.length) (c :: name ++ '=' :: value) left
  | address {domain left : List Char} : past.rtakeWhile isLocal ≠ [] → '.' ∈ domain → domain.head? ≠ some '.' →
    domain.getLast? ≠ some '.' → (∀ c ∈ domain, isDomain c) → (∀ c ∈ left.head?, c = '.' ∨ isDomain c = false) →
    address past ('@' :: (domain ++ left)) = some (.address (past.rtakeWhile isLocal).length (1 + domain.length)) →
    Finds past (.address (past.rtakeWhile isLocal).length (1 + domain.length)) ('@' :: domain) left
  | plain {c : Char} {left : List Char} : keyAt past (c :: left) = none → signedParam (c :: left) = none →
    refreshToken past (c :: left) = none → address past (c :: left) = none → Finds past .plain [c] left

section Found

theorem head?_dropWhile {p : Char → Bool} {cs : List Char} : ∀ c ∈ (cs.dropWhile p).head?, p c = false := by
  intro c mem
  have := List.head?_dropWhile_not p cs
  rw [Option.mem_def.mp mem] at this
  exact this

theorem getLast?_rdropWhile {cs : List Char} : (cs.rdropWhile (· = '.')).getLast? ≠ some '.' := by
  intro last
  have ne : cs.rdropWhile (· = '.') ≠ [] := by
    intro nil
    rw [nil] at last
    cases last
  rw [List.getLast?_eq_some_getLast ne, Option.some_inj] at last
  exact List.rdropWhile_last_not _ _ ne (by simpa using last)

theorem accessToken_some {f : Found} (h : accessToken past rest = some f) :
    ∃ key left, rest = key ++ left ∧ f = .token key.length ∧ startsWord past ∧ 5 ≤ key.length ∧ (∀ c ∈ key, isToken c) ∧
      ∀ c ∈ left.head?, isToken c = false := by
  rw [accessToken] at h
  split at h
  case isFalse => cases h
  case isTrue starts =>
    cases h
    obtain ⟨starts, more, rfl⟩ := starts
    refine ⟨"ya29.".toList ++ more.takeWhile isToken, more.dropWhile isToken, ?_, ?_, starts, ?_, ?_, head?_dropWhile⟩
    · rw [List.append_assoc, List.takeWhile_append_dropWhile]
    · have drop : ("ya29.".toList ++ more).drop 5 = more := rfl
      rw [drop, List.length_append]
      rfl
    · simp
    · intro c mem
      rcases List.mem_append.mp mem with mem | mem
      · exact List.all_eq_true.mp (by decide : "ya29.".toList.all isToken) c mem
      · exact List.mem_takeWhile_imp mem

theorem apiKey_some {f : Found} (h : apiKey past rest = some f) :
    ∃ key left, rest = key ++ left ∧ f = .token key.length ∧ startsWord past ∧ 5 ≤ key.length ∧ (∀ c ∈ key, isToken c) ∧
      ∀ c ∈ left.head?, isToken c = false := by
  rw [apiKey] at h
  split at h
  case isFalse => cases h
  case isTrue starts =>
    obtain ⟨start, is, h⟩ := Option.bind_eq_some_iff.mp h
    have known := List.mem_of_find?_eq_some is
    have first : start.toList <+: rest := List.isPrefixOf_iff_prefix.mp (by simpa using List.find?_some is)
    obtain ⟨more, rfl⟩ := first
    have tokens : ∀ c ∈ start.toList, isToken c :=
      List.all_eq_true.mp (List.all_eq_true.mp (by decide : KEY_PREFIXES.all fun s => s.toList.all isToken) start known)
    have drop : (start.toList ++ more).drop start.length = more := List.drop_left' rfl
    dsimp only at h
    rw [drop] at h
    split at h <;> cases h
    case isTrue long =>
      refine ⟨start.toList ++ more.takeWhile isToken, more.dropWhile isToken, ?_, ?_, starts, ?_, ?_, head?_dropWhile⟩
      · rw [List.append_assoc, List.takeWhile_append_dropWhile]
      · rw [List.length_append, String.length_toList]
      · rw [List.length_append, String.length_toList]
        omega
      · intro c mem
        exact (List.mem_append.mp mem).elim (tokens c) List.mem_takeWhile_imp

theorem refreshToken_some {f : Found} (h : refreshToken past rest = some f) :
    ∃ run left, rest = "1//".toList ++ (run ++ left) ∧ f = .token (3 + run.length) ∧ startsWord past ∧ 20 ≤ run.length ∧
      (∀ c ∈ run, isToken c) ∧ ∀ c ∈ left.head?, isToken c = false := by
  rw [refreshToken] at h
  split at h
  case isFalse => cases h
  case isTrue starts =>
    cases h
    obtain ⟨starts, ⟨more, rfl⟩, long⟩ := starts
    have drop : ("1//".toList ++ more).drop 3 = more := rfl
    rw [drop] at long ⊢
    refine ⟨more.takeWhile isToken, more.dropWhile isToken, ?_, rfl, starts, ?_, ?_, head?_dropWhile⟩
    · rw [List.takeWhile_append_dropWhile]
    · omega
    · exact fun c => List.mem_takeWhile_imp

theorem signedParam_some {f : Found} (h : signedParam rest = some f) :
    ∃ c name value left, rest = c :: name ++ '=' :: value ++ left ∧ f = .param (name.length + 2) value.length ∧
      (c = '?' ∨ c = '&') ∧ (∀ c ∈ name, isName c) ∧ String.ofList (name.map Char.toLower) ∈ SIGNED_QUERY ∧
      (∀ c ∈ value, isDelimiter c = false) ∧ ∀ c ∈ left.head?, isDelimiter c := by
  cases rest
  case nil         => cases h
  case cons c rest =>
    rw [signedParam] at h
    split at h
    case isFalse => cases h
    case isTrue is =>
      cases h
      obtain ⟨mark, equals, known⟩ := is
      generalize hn : rest.takeWhile isName = name at *
      have split : rest = name ++ rest.drop name.length :=
        (List.prefix_iff_eq_append.mp (hn ▸ List.takeWhile_prefix isName)).symm
      obtain ⟨more, eq⟩ : ∃ more, rest.drop name.length = '=' :: more := by
        cases eq : rest.drop name.length
        case nil         => rw [eq] at equals; cases equals
        case cons d more => rw [eq] at equals; cases equals; exact ⟨more, rfl⟩
      have after : rest.drop (name.length + 1) = more := by rw [← List.drop_drop, eq]; rfl
      refine ⟨c, name, more.takeWhile (!isDelimiter ·), more.dropWhile (!isDelimiter ·), ?_, ?_, mark, ?_, known, ?_, ?_⟩
      · rw [List.append_assoc, List.cons_append, List.cons_append, List.takeWhile_append_dropWhile, ← eq, ← split]
      · rw [after]
      · intro c mem
        rw [← hn] at mem
        exact List.mem_takeWhile_imp mem
      · intro c mem
        simpa using List.mem_takeWhile_imp mem
      · intro c mem
        simpa using head?_dropWhile c mem

theorem address_some {f : Found} (h : address past rest = some f) :
    ∃ domain left, rest = '@' :: (domain ++ left) ∧
      f = .address (past.rtakeWhile isLocal).length (1 + domain.length) ∧ past.rtakeWhile isLocal ≠ [] ∧ '.' ∈ domain ∧
      domain.head? ≠ some '.' ∧ domain.getLast? ≠ some '.' ∧ (∀ c ∈ domain, isDomain c) ∧
      ∀ c ∈ left.head?, c = '.' ∨ isDomain c = false := by
  cases rest
  case nil         => cases h
  case cons c rest =>
    rw [address] at h
    split at h
    case isFalse => cases h
    case isTrue is =>
      cases h
      obtain ⟨rfl, written, dot, first⟩ := is
      obtain ⟨dots, eq⟩ : ∃ dots, rest.takeWhile isDomain = (rest.takeWhile isDomain).rdropWhile (· = '.') ++ dots :=
        ⟨_, List.rdropWhile_append_rtakeWhile.symm⟩
      have trailing : ∀ c ∈ dots, c = '.' := by
        intro c mem
        have same : dots = (rest.takeWhile isDomain).rtakeWhile (· = '.') :=
          List.append_cancel_left (eq.symm.trans List.rdropWhile_append_rtakeWhile.symm)
        rw [same] at mem
        simpa using List.mem_rtakeWhile_imp mem
      refine ⟨_, dots ++ rest.dropWhile isDomain, ?_, rfl, written, dot, first, getLast?_rdropWhile, ?_, ?_⟩
      · rw [← List.append_assoc, ← eq, List.takeWhile_append_dropWhile]
      · intro c mem
        exact List.mem_takeWhile_imp ((List.rdropWhile_prefix _ _).subset mem)
      · intro c mem
        cases dots
        case nil         => exact .inr (head?_dropWhile c mem)
        case cons d dots => cases mem; exact .inl (trailing _ List.mem_cons_self)

theorem finds (past : List Char) (c : Char) (rest : List Char) :
    ∃ chunk left, c :: rest = chunk ++ left ∧ (found past (c :: rest)).len = chunk.length ∧
      Finds past (found past (c :: rest)) chunk left := by
  rw [found]
  cases key : keyAt past (c :: rest)
  case some f =>
    obtain ⟨key', left, eq, rfl, starts, long, tokens, next⟩ := (Option.or_eq_some_iff.mp key).elim accessToken_some
      fun h => apiKey_some h.right
    rw [keyAt] at key
    rw [key]
    exact ⟨key', left, eq, rfl, .key starts long tokens next (eq ▸ key)⟩
  case none =>
    rw [show (accessToken past (c :: rest)).or (apiKey past (c :: rest)) = none from key, Option.none_or]
    cases param : signedParam (c :: rest)
    case some f =>
      obtain ⟨d, name, value, left, eq, rfl, mark, names, known, kept, next⟩ := signedParam_some param
      refine ⟨_, left, eq, ?_, .param mark names known kept next (eq ▸ param)⟩
      simp [Found.len]
      omega
    case none =>
      cases refresh : refreshToken past (c :: rest)
      case some f =>
        obtain ⟨run, left, eq, rfl, starts, long, tokens, next⟩ := refreshToken_some refresh
        refine ⟨_, left, eq.trans (List.append_assoc ..).symm, ?_, .refresh long tokens next (eq ▸ refresh)⟩
        simp [Found.len]
        omega
      case none =>
        cases mail : address past (c :: rest)
        case some f =>
          obtain ⟨domain, left, eq, rfl, written, dot, first, last, domains, next⟩ := address_some mail
          refine ⟨_, left, eq, ?_, .address written dot first last domains next (eq ▸ mail)⟩
          simp [Found.len]
          omega
        case none => exact ⟨[c], rest, rfl, rfl, .plain key param refresh mail⟩

theorem Finds.ne_nil {f : Found} (h : Finds past f chunk left) : chunk ≠ [] := by
  cases h
  case key long _ _ _ => exact List.ne_nil_of_length_pos (by omega)
  all_goals simp

-- What each turn of the loop keeps holds of all that is made of a text.
theorem scan_invariant {write : List Char → List Char → γ → Found → γ} {P : List Char → List Char → γ → Prop}
    (step : ∀ past chunk left out, P past (chunk ++ left) out → Finds past (found past (chunk ++ left)) chunk left →
      P (past ++ chunk) left (write past (chunk ++ left) out (found past (chunk ++ left))))
    {fuel : Nat} {past rest : List Char} {out : γ} (enough : rest.length ≤ fuel) (h : P past rest out) :
    P (past ++ rest) [] (scan write fuel past rest out) := by
  induction fuel generalizing past rest out
  case zero =>
    cases List.length_eq_zero_iff.mp (Nat.le_zero.mp enough)
    rw [List.append_nil, scan]
    exact h
  case succ fuel ih =>
    cases rest
    case nil =>
      rw [List.append_nil, scan]
      exact h
    case cons c rest =>
      obtain ⟨chunk, left, eq, len, finds⟩ := finds past c rest
      rw [scan, len]
      rw [eq] at h finds enough ⊢
      have pos := List.length_pos_of_ne_nil finds.ne_nil
      rw [List.take_left' rfl, List.drop_left' rfl, ← List.append_assoc]
      refine ih ?_ (step past chunk left out h finds)
      rw [List.length_append] at enough
      omega

end Found

end Kaluta.Logging
