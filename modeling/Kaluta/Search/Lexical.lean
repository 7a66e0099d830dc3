import Kaluta.Search.Parse
import Mathlib.Data.List.TakeWhile

namespace Kaluta

-- Nothing of a word follows.
def WordEnds (cs : List Char) : Prop :=
  ∀ c ∈ cs.head?, isWordChar c = false

-- The longest run of a word's characters. A leading `-` belongs to it only where a blank follows.
structure IsWord (w cs : List Char) : Prop where
  nonempty : w ≠ []
  chars    : ∀ c ∈ w, isWordChar c = true
  ends     : WordEnds cs
  minus    : w.head? = some '-' → ∀ c ∈ (w.tail ++ cs).head?, isWhitespace c = true

-- The tokens that a text is made of.
inductive Lexes : List Char → List Kind → Prop
  | nil : Lexes [] []
  | blank (hc : isWhitespace c = true) : Lexes cs ks → Lexes (c :: cs) ks
  | open : Lexes cs ks → Lexes ('(' :: cs) (.open :: ks)
  | close : Lexes cs ks → Lexes (')' :: cs) (.close :: ks)
  | minus (hc : isWhitespace c = false) : Lexes (c :: cs) ks → Lexes ('-' :: c :: cs) (.minus :: ks)
  | quoted (hq : '"' ∉ q) : Lexes cs ks → Lexes ('"' :: (q ++ '"' :: cs)) (.quoted (.ofList q) :: ks)
  | or (hw : w = ['O', 'R'] ∨ w = ['|']) (he : WordEnds cs) : Lexes cs ks → Lexes (w ++ cs) (.or :: ks)
  | word (hw : IsWord w cs) (ho : ¬(w = ['O', 'R'] ∨ w = ['|'])) (hf : fieldOf w = none) :
    Lexes cs ks → Lexes (w ++ cs) (.word (.ofList w) :: ks)
  | fieldWord (hw : IsWord w cs) (hf : fieldOf w = some (f, v)) (hv : v ≠ []) :
    Lexes cs ks → Lexes (w ++ cs) (.field (asciiLower f) :: .word (.ofList v) :: ks)
  | fieldQuoted (hw : IsWord w ('"' :: (q ++ '"' :: cs))) (hf : fieldOf w = some (f, [])) (hq : '"' ∉ q) :
    Lexes cs ks → Lexes (w ++ '"' :: (q ++ '"' :: cs)) (.field (asciiLower f) :: .quoted (.ofList q) :: ks)

-- The text of characters that have a position.
def textOf (chars : List (Nat × Char)) : List Char :=
  chars.map (·.2)

def kindsOf (ts : List Token) : List Kind :=
  ts.map (·.kind)

theorem textOf_charIndices : textOf (charIndices pos cs) = cs := by
  induction cs generalizing pos
  case nil => rfl
  case cons c cs ih => exact congrArg (c :: ·) ih

theorem readQuoted_eq_ok (h : readQuoted opened chars = .ok (value, next)) :
    ∃ q, '"' ∉ q ∧ value = .ofList q ∧ textOf chars = q ++ '"' :: textOf next := by
  rw [readQuoted] at h
  split at h
  case h_1 => cases h
  case h_2 c rest hd =>
    cases h
    have last := List.head?_dropWhile_not (·.2 ≠ '"') chars
    rw [hd, List.head?_cons] at last
    have hc : c.2 = '"' := by simpa using last
    refine ⟨_, ?_, rfl, ?_⟩
    · intro hm
      obtain ⟨x, hx, he⟩ := List.mem_map.mp hm
      have := List.mem_takeWhile_imp hx
      simp [he] at this
    · conv_lhs => rw [textOf, ← List.takeWhile_append_dropWhile (p := (·.2 ≠ '"')) (l := chars), hd]
      rw [List.map_append, List.map_cons, hc]
      rfl

theorem readQuoted_of_text (hq : '"' ∉ q) (h : textOf chars = q ++ '"' :: cs) :
    ∃ next, readQuoted o chars = .ok (.ofList q, next) ∧ textOf next = cs := by
  obtain ⟨before, rest, rfl, hb, hr⟩ := List.map_eq_append_iff.mp h
  obtain ⟨c, next, rfl, hc, hn⟩ := List.map_eq_cons_iff.mp hr
  have all : ∀ x ∈ before, decide (x.2 ≠ '"') = true :=
    fun x hx => decide_eq_true fun he => hq (hb ▸ he ▸ List.mem_map_of_mem hx)
  refine ⟨next, ?_, hn⟩
  rw [readQuoted, List.dropWhile_append_of_pos all, List.takeWhile_append_of_pos all,
    List.dropWhile_cons_of_neg (by simp [hc]), List.takeWhile_cons_of_neg (by simp [hc]), List.append_nil, hb]

theorem tokenize_cons :
    tokenize ((pos, c) :: cs) = readTokens pos c cs >>= fun (ts, next) => (ts ++ ·) <$> tokenize next := by
  rw [tokenize.eq_def]
  dsimp only
  split
  case h_1 e he => rw [he]; rfl
  case h_2 he   => rw [he]; rfl

theorem tokenize_cons_eq_ok : tokenize ((pos, c) :: cs) = .ok ts ↔
    ∃ us next vs, readTokens pos c cs = .ok (us, next) ∧ tokenize next = .ok vs ∧ us ++ vs = ts := by
  rw [tokenize_cons, Except.bind_eq_ok]
  constructor
  · rintro ⟨⟨us, next⟩, hr, h⟩
    have ⟨vs, hv, he⟩ := Except.map_eq_ok.mp h
    exact ⟨us, next, vs, hr, hv, he⟩
  · rintro ⟨us, next, vs, hr, hv, he⟩
    exact ⟨(us, next), hr, Except.map_eq_ok.mpr ⟨vs, hv, he⟩⟩

theorem Lexes.of_readWord (hw : IsWord w (textOf rest)) (h : readWord pos w rest = .ok (ts, next))
    (hl : Lexes (textOf next) ks) : Lexes (w ++ textOf rest) (kindsOf ts ++ ks) := by
  rw [readWord] at h
  split at h
  case h_1 f v hf =>
    split at h
    case isTrue hv =>
      cases h
      exact .fieldWord hw hf hv hl
    case isFalse hv =>
      rw [ne_eq, not_not] at hv
      subst hv
      split at h
      case h_1 quote rest =>
        obtain ⟨_, hq, h⟩ := Except.bind_eq_ok.mp h
        cases h
        obtain ⟨q, hn, hv, ht⟩ := readQuoted_eq_ok hq
        change IsWord w ('"' :: textOf rest) at hw
        change Lexes (w ++ '"' :: textOf rest) _
        rw [ht] at hw ⊢
        rw [hv]
        exact .fieldQuoted hw hf hn hl
      case h_2 => cases h
  case h_2 hf =>
    cases h
    by_cases ho : w = ['O', 'R'] ∨ w = ['|']
    case pos =>
      simp only [if_pos ho]
      exact .or ho hw.ends hl
    case neg =>
      simp only [if_neg ho]
      exact .word hw ho hf hl

theorem textOf_takeWhile_append (p : Nat × Char → Bool) (chars : List (Nat × Char)) :
    textOf (chars.takeWhile p) ++ textOf (chars.dropWhile p) = textOf chars := by
  rw [textOf, textOf, ← List.map_append, List.takeWhile_append_dropWhile]
  rfl

theorem isWord_span (hc : isWordChar c = true) (minus : c = '-' → ∀ d ∈ (textOf cs).head?, isWhitespace d = true) :
    IsWord (c :: textOf (cs.takeWhile (isWordChar ·.2))) (textOf (cs.dropWhile (isWordChar ·.2))) := by
  constructor
  · exact List.cons_ne_nil c _
  · intro d hd
    obtain rfl | hd := List.mem_cons.mp hd
    · exact hc
    · obtain ⟨x, hx, rfl⟩ := List.mem_map.mp hd
      have := List.mem_takeWhile_imp hx
      exact this
  · intro d hd
    have last := List.head?_dropWhile_not (isWordChar ·.2) cs
    rw [textOf, List.head?_map] at hd
    obtain ⟨x, hx, rfl⟩ := Option.mem_map.mp hd
    rw [Option.mem_def.mp hx] at last
    simpa using last
  · intro hm
    rw [List.tail_cons, textOf_takeWhile_append]
    exact minus (Option.some.inj hm)

theorem Lexes.of_readTokens (h : readTokens pos c cs = .ok (ts, next)) (hl : Lexes (textOf next) ks) :
    Lexes (c :: textOf cs) (kindsOf ts ++ ks) := by
  simp only [readTokens] at h
  split at h
  case isTrue hc => cases h; exact .blank hc hl
  case isFalse blank =>
  split at h
  case isTrue hc => cases h; subst hc; exact .open hl
  case isFalse opens =>
  split at h
  case isTrue hc => cases h; subst hc; exact .close hl
  case isFalse closes =>
  split at h
  case isTrue hc =>
    cases h
    obtain ⟨rfl, hd⟩ := hc
    cases cs
    case nil       => cases hd
    case cons d cs => exact .minus (by simpa using hd) hl
  case isFalse minus =>
  split at h
  case isTrue hc =>
    obtain ⟨_, hq, h⟩ := Except.bind_eq_ok.mp h
    cases h
    obtain ⟨q, hn, hv, ht⟩ := readQuoted_eq_ok hq
    rw [hc, hv, ht]
    exact .quoted hn hl
  case isFalse quotes =>
    have hc : isWordChar c = true := by simp [isWordChar, blank, opens, closes, quotes]
    have word : IsWord (c :: textOf (cs.takeWhile (isWordChar ·.2))) (textOf (cs.dropWhile (isWordChar ·.2))) := by
      refine isWord_span hc fun hm d hd => ?_
      rw [textOf, List.head?_map] at hd
      obtain ⟨x, hx, rfl⟩ := Option.mem_map.mp hd
      by_contra hb
      exact minus ⟨hm, by simp [Option.mem_def.mp hx, hb]⟩
    have lexes := Lexes.of_readWord word h hl
    rwa [List.cons_append, textOf_takeWhile_append] at lexes

-- What the tokenizer reads is what the text is made of.
theorem Lexes.of_tokenize (h : tokenize chars = .ok ts) : Lexes (textOf chars) (kindsOf ts) := by
  induction hn : chars.length using Nat.strong_induction_on generalizing chars ts
  case h n ih =>
    cases chars
    case nil =>
      rw [tokenize.eq_def] at h
      cases h
      exact .nil
    case cons x cs =>
      obtain ⟨us, next, vs, hr, hv, rfl⟩ := tokenize_cons_eq_ok.mp h
      have shorter := readTokens_shorter hr
      rw [List.length_cons] at hn
      rw [kindsOf, List.map_append]
      exact .of_readTokens hr (ih _ (by omega) hv rfl)

theorem tokenize_append (hr : readTokens pos c cs = .ok (u, next))
    (h : ∃ vs, tokenize next = .ok vs ∧ kindsOf vs = ks) :
    ∃ ts, tokenize ((pos, c) :: cs) = .ok ts ∧ kindsOf ts = kindsOf u ++ ks := by
  obtain ⟨vs, hv, rfl⟩ := h
  exact ⟨u ++ vs, tokenize_cons_eq_ok.mpr ⟨u, next, vs, hr, hv, rfl⟩, List.map_append⟩

theorem readTokens_of_word (hw : IsWord (c :: w) cs) (h : textOf chars = w ++ cs) :
    ∃ rest, readTokens p c chars = readWord p (c :: w) rest ∧ textOf rest = cs := by
  obtain ⟨before, rest, rfl, hb, hr⟩ := List.map_eq_append_iff.mp h
  have ⟨_, all, ends, minus⟩ := hw
  have here := all c List.mem_cons_self
  simp only [isWordChar, Bool.and_eq_true, Bool.not_eq_true', decide_eq_true_eq] at here
  have ⟨⟨⟨blank, opens⟩, closes⟩, quotes⟩ := here
  have word : ∀ x ∈ before, isWordChar x.2 = true :=
    fun x hx => all x.2 (List.mem_cons_of_mem _ (hb ▸ List.mem_map_of_mem hx))
  have taken : (before ++ rest).takeWhile (isWordChar ·.2) = before ∧
      (before ++ rest).dropWhile (isWordChar ·.2) = rest := by
    rw [List.takeWhile_append_of_pos word, List.dropWhile_append_of_pos word]
    cases rest
    case nil       => simp
    case cons x xs =>
      have stop : isWordChar x.2 = false := ends x.2 (hr ▸ rfl)
      simp [stop]
  have leading : ¬(c = '-' ∧ (before ++ rest).head?.any (!isWhitespace ·.2) = true) := by
    rintro ⟨rfl, hd⟩
    obtain ⟨x, hx⟩ : ∃ x, (before ++ rest).head? = some x := by
      cases he : (before ++ rest).head?
      case none   => rw [he] at hd; cases hd
      case some x => exact ⟨x, rfl⟩
    rw [hx] at hd
    have follows : x.2 ∈ (w ++ cs).head? := by
      rw [← h, textOf, List.head?_map, hx]
      rfl
    simp [minus rfl x.2 follows] at hd
  refine ⟨rest, ?_, hr⟩
  simp only [readTokens, blank, opens, closes, quotes, leading, if_false, Bool.false_eq_true, taken.left, taken.right]
  exact congrArg (fun w => readWord p (c :: w) rest) hb

theorem readTokens_quote (h : readQuoted pos cs = .ok (value, next)) :
    readTokens pos '"' cs = .ok ([⟨.quoted value, pos⟩], next) := by
  have blank : isWhitespace '"' = false := by decide
  simp only [readTokens, blank, h, Bool.false_eq_true, if_false, if_true, Char.reduceEq, false_and]
  rfl

-- What a word stands for, where what follows it is not part of what it stands for.
theorem tokenize_word (hw : IsWord w cs) (h : textOf chars = w ++ cs)
    (hr : ∀ pos rest, textOf rest = cs → ∃ ts next, readWord pos w rest = .ok (ts, next) ∧
      textOf next = cs' ∧ kindsOf ts = k)
    (ih : ∀ chars, textOf chars = cs' → ∃ ts, tokenize chars = .ok ts ∧ kindsOf ts = ks) :
    ∃ ts, tokenize chars = .ok ts ∧ kindsOf ts = k ++ ks := by
  cases w
  case nil       => exact absurd rfl hw.nonempty
  case cons c w =>
    obtain ⟨⟨pos, _⟩, xs, rfl, rfl, hx⟩ := List.map_eq_cons_iff.mp h
    obtain ⟨rest, hread, hrest⟩ := readTokens_of_word (p := pos) hw hx
    obtain ⟨ts, next, hts, hn, rfl⟩ := hr pos rest hrest
    exact tokenize_append (hread.trans hts) (ih next hn)

-- Whatever positions the characters have, the tokenizer reads the tokens that a text is made of.
theorem Lexes.tokenize (h : Lexes cs ks) :
    ∀ chars, textOf chars = cs → ∃ ts, Kaluta.tokenize chars = .ok ts ∧ kindsOf ts = ks := by
  induction h
  case nil =>
    intro chars hc
    rw [List.map_eq_nil_iff.mp hc, Kaluta.tokenize.eq_def]
    exact ⟨[], rfl, rfl⟩
  case blank hb _ ih =>
    intro chars hc
    obtain ⟨⟨pos, _⟩, xs, rfl, rfl, hx⟩ := List.map_eq_cons_iff.mp hc
    exact tokenize_append (u := []) (by rw [readTokens, if_pos hb]) (ih xs hx)
  case «open» ih =>
    intro chars hc
    obtain ⟨⟨pos, _⟩, xs, rfl, rfl, hx⟩ := List.map_eq_cons_iff.mp hc
    exact tokenize_append (u := [⟨.open, pos⟩]) rfl (ih xs hx)
  case close ih =>
    intro chars hc
    obtain ⟨⟨pos, _⟩, xs, rfl, rfl, hx⟩ := List.map_eq_cons_iff.mp hc
    exact tokenize_append (u := [⟨.close, pos⟩]) rfl (ih xs hx)
  case minus hb _ ih =>
    intro chars hc
    obtain ⟨⟨pos, _⟩, xs, rfl, rfl, hx⟩ := List.map_eq_cons_iff.mp hc
    obtain ⟨x, xs, rfl, rfl, _⟩ := List.map_eq_cons_iff.mp hx
    have blank : isWhitespace '-' = false := by decide
    refine tokenize_append (u := [⟨.minus, pos⟩]) ?_ (ih (x :: xs) hx)
    simp [readTokens, blank, hb]
  case quoted q _ _ hq _ ih =>
    intro chars hc
    obtain ⟨⟨pos, _⟩, xs, rfl, rfl, hx⟩ := List.map_eq_cons_iff.mp hc
    obtain ⟨next, hr, hn⟩ := readQuoted_of_text (o := pos) hq hx
    exact tokenize_append (u := [⟨.quoted (.ofList q), pos⟩]) (readTokens_quote hr) (ih next hn)
  case or w cs _ hw he _ ih =>
    intro chars hc
    have word : IsWord w cs := by
      obtain rfl | rfl := hw
      · exact ⟨by simp, List.all_eq_true.mp (by decide), he, by simp⟩
      · exact ⟨by simp, List.all_eq_true.mp (by decide), he, by simp⟩
    refine tokenize_word (k := [.or]) word hc (fun pos rest hr => ⟨[⟨.or, pos⟩], rest, ?_, hr, rfl⟩) ih
    have none : fieldOf w = none := by obtain rfl | rfl := hw <;> rfl
    simp only [readWord, none, hw, if_true]
  case word w cs _ hw ho hf _ ih =>
    intro chars hc
    refine tokenize_word (k := [.word (.ofList w)]) hw hc
      (fun pos rest hr => ⟨[⟨.word (.ofList w), pos⟩], rest, ?_, hr, rfl⟩) ih
    simp only [readWord, hf, ho, if_false]
  case fieldWord w cs f v _ hw hf hv _ ih =>
    intro chars hc
    refine tokenize_word (k := [.field (asciiLower f), .word (.ofList v)]) hw hc
      (fun pos rest hr => ⟨[⟨.field (asciiLower f), pos⟩, ⟨.word (.ofList v), pos + f.utf8ByteSize + 1⟩], rest,
        ?_, hr, rfl⟩) ih
    simp only [readWord, hf, if_pos hv]
  case fieldQuoted w q cs f _ hw hf hq _ ih =>
    intro chars hc
    refine tokenize_word (k := [.field (asciiLower f), .quoted (.ofList q)]) hw hc (fun pos rest hr => ?_) ih
    obtain ⟨⟨quote, _⟩, xs, rfl, rfl, hx⟩ := List.map_eq_cons_iff.mp hr
    obtain ⟨next, hr, hn⟩ := readQuoted_of_text (o := quote) hq hx
    refine ⟨[⟨.field (asciiLower f), pos⟩, ⟨.quoted (.ofList q), quote⟩], next, ?_, hn, rfl⟩
    simp only [readWord, hf, hr, ne_eq, not_true, if_false]
    rfl

-- The tokenizer reads exactly the tokens that the text is made of.
theorem tokenize_iff {input : List Char} :
    (∃ ts, tokenize (charIndices 0 input) = .ok ts ∧ kindsOf ts = ks) ↔ Lexes input ks := by
  constructor
  · rintro ⟨ts, ht, rfl⟩
    have := Lexes.of_tokenize ht
    rwa [textOf_charIndices] at this
  · exact fun h => h.tokenize _ textOf_charIndices

end Kaluta
