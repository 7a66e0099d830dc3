import Mathlib.Data.List.TakeWhile
import Kaluta.Search.Grammar

namespace Kaluta

-- How tightly a tree has to hold together where it is printed.
inductive Binding
  | or
  | and
  | unary
  deriving DecidableEq

def decimal (n : Nat) : List Char :=
  Nat.toDigits 10 n

-- Every date that can be asked for.
def dates : List (Nat × Nat × Nat) :=
  (List.range 8030).flatMap fun y => (List.range 12).flatMap fun m => (List.range 31).map fun d =>
    (y + 1970, m + 1, d + 1)

def dateOf (instant : Millis) : Option (Nat × Nat × Nat) :=
  dates.find? fun (y, m, d) => daysFromCivil y m d * 86400000 = instant

def dateText (instant : Millis) : String :=
  match dateOf instant with
  | some (y, m, d) => .ofList (decimal y ++ '-' :: (decimal m ++ '-' :: decimal d))
  | none           => ""

def Mailbox.text : Mailbox → String
  | inbox    => "inbox"
  | archive  => "archive"
  | sent     => "sent"
  | drafts   => "drafts"
  | trash    => "trash"
  | spam     => "spam"
  | starred  => "starred"
  | anywhere => "anywhere"

def Flag.text : Flag → String
  | unread    => "unread"
  | read      => "read"
  | starred   => "starred"
  | important => "important"

def IsPlain (v : String) : Prop :=
  v.toList ≠ [] ∧ v.toList.all isWordChar

instance : Decidable (IsPlain v) :=
  inferInstanceAs (Decidable (_ ∧ _))

-- A value is quoted when it could not be read back otherwise.
def valueKind (v : String) : Kind :=
  if IsPlain v then .word v else .quoted v

namespace SearchExpr

def termKinds : SearchExpr → List Kind
  | and _ | or _ | not _ => []
  | text w               => [.word w]
  | phrase q             => [.quoted q]
  | .from v              => [.field "from", valueKind v]
  | .to v                => [.field "to", valueKind v]
  | cc v                 => [.field "cc", valueKind v]
  | bcc v                => [.field "bcc", valueKind v]
  | subject v            => [.field "subject", valueKind v]
  | label v              => [.field "label", valueKind v]
  | .in mailbox          => [.field "in", .word mailbox.text]
  | is flag              => [.field "is", .word flag.text]
  | hasAttachment        => [.field "has", .word "attachment"]
  | filename v           => [.field "filename", valueKind v]
  | after instant        => [.field "after", .word (dateText instant)]
  | before instant       => [.field "before", .word (dateText instant)]
  | newerThan days       => [.field "newer_than", .word (.ofList (decimal days.toNat ++ ['d']))]
  | olderThan days       => [.field "older_than", .word (.ofList (decimal days.toNat ++ ['d']))]
  | larger bytes         => [.field "larger", .word (.ofList (decimal bytes.toNat))]
  | smaller bytes        => [.field "smaller", .word (.ofList (decimal bytes.toNat))]

mutual

-- The tokens of a tree, in parentheses only where the tree would fall apart without them.
def kinds (b : Binding) : SearchExpr → List Kind
  | and all => if b = .unary then .open :: (juxtaposed all ++ [.close]) else juxtaposed all
  | or any  => if b = .or then alternatives any else .open :: (alternatives any ++ [.close])
  | not e   => .minus :: kinds .unary e
  | e       => e.termKinds

def juxtaposed : List SearchExpr → List Kind
  | []      => []
  | e :: es => kinds .unary e ++ juxtaposed es

def alternatives : List SearchExpr → List Kind
  | []      => []
  | e :: es => kinds .and e ++ moreAlternatives es

def moreAlternatives : List SearchExpr → List Kind
  | []      => []
  | e :: es => .or :: (kinds .and e ++ moreAlternatives es)

end

end SearchExpr

def Kind.render : Kind → List Char
  | word w   => w.toList ++ [' ']
  | quoted q => '"' :: (q.toList ++ ['"', ' '])
  | field f  => f.toList ++ [':']
  | minus    => ['-']
  | .open    => ['(']
  | close    => [')', ' ']
  | or       => ['O', 'R', ' ']

def SearchExpr.print (e : SearchExpr) : String :=
  .ofList ((e.kinds .or).flatMap Kind.render)

end Kaluta

namespace Kaluta

-- Numbers

theorem isDigit_decimal (hc : c ∈ decimal n) : c.isDigit = true :=
  Nat.isDigit_of_mem_toDigits (by decide) (by decide) hc

theorem decimal_not_mem (hc : c.isDigit = false) : c ∉ decimal n :=
  fun hm => by simp [isDigit_decimal hm] at hc

theorem decimal_ne_nil : decimal n ≠ [] :=
  Nat.toDigits_ne_nil

theorem parseUnsigned_decimal (hn : n < limit) : parseUnsigned limit (decimal n) = some n := by
  have sign : (decimal n).head? ≠ some '+' :=
    fun h => decimal_not_mem (c := '+') (by decide) (List.mem_of_mem_head? h)
  have digits : (decimal n).all Char.isDigit = true := List.all_eq_true.mpr fun _ hc => isDigit_decimal hc
  have value : Nat.ofDigitChars 10 (decimal n) 0 = n := Nat.ofDigitChars_ten_toDigits
  simp only [parseUnsigned, if_neg sign]
  rw [value, if_pos ⟨decimal_ne_nil, digits, hn⟩]

theorem parseI64_decimal (hn : n < 2 ^ 63) : parseI64 (decimal n) = some (n : Int) := by
  rw [parseI64]
  · rw [parseUnsigned_decimal hn]
    rfl
  · exact fun ds h => decimal_not_mem (c := '-') (by decide) (h ▸ List.mem_cons_self)

theorem parseSize_decimal (hn : n < 2 ^ 64) : parseSize (.ofList (decimal n)) = .ok (.ofNat n) := by
  have lower : (decimal n).map Char.toLower = decimal n := by
    refine (List.map_congr_left fun c hc => ?_).trans (List.map_id _)
    have := isDigit_decimal hc
    refine (dif_neg ?_ : c.toLower = c)
    · simp only [Char.isDigit, Bool.and_eq_true, decide_eq_true_eq, UInt32.le_iff_toNat_le] at this ⊢
      have h : ('9'.val : UInt32).toNat = 57 := rfl
      have h' : ('A'.val : UInt32).toNat = 65 := rfl
      omega
  have unit : ∀ c, c.isDigit = false → (decimal n).getLast? ≠ some c :=
    fun c hc h => decimal_not_mem hc (List.mem_of_getLast? h)
  have plain : sizeUnit (decimal n) = (decimal n, 1) := by
    rw [sizeUnit.eq_def]
    split
    case h_1 h => exact absurd h (unit 'k' (by decide))
    case h_2 h => exact absurd h (unit 'm' (by decide))
    case h_3 h => exact absurd h (unit 'g' (by decide))
    case h_4   => rfl
  rw [parseSize]
  simp only [String.toList_ofList, lower, plain, parseUnsigned_decimal hn]
  rw [Nat.mul_one, Nat.min_eq_left (by omega)]
  rfl

theorem parseAge_decimal (hn : n < 2 ^ 32) : parseAge (.ofList (decimal n ++ ['d'])) = .ok (.ofNat n) := by
  have unit : 'd'.utf8Size = 1 := by decide
  have lower : 'd'.toLower = 'd' := by decide
  simp only [parseAge, String.toList_ofList, List.getLast?_append, List.getLast?_singleton, Option.some_or,
    List.dropLast_concat, parseUnsigned_decimal hn, unit, lower]
  rw [Nat.mul_one, Nat.min_eq_left (by omega)]
  rfl

-- Dates

def IsDate (instant : Millis) : Prop :=
  ∃ y m d : Int, (1970 ≤ y ∧ y ≤ 9999 ∧ 1 ≤ m ∧ m ≤ 12 ∧ 1 ≤ d ∧ d ≤ 31) ∧ daysFromCivil y m d * 86400000 = instant

theorem isDate_of_parseDate (h : parseDate v = .ok instant) : IsDate instant := by
  rw [parseDate.eq_def] at h
  split at h
  case h_1 =>
    split at h
    case h_2 => cases h
    case h_1 y _ =>
    split at h
    case h_2 => cases h
    case h_1 m _ =>
    split at h
    case h_2 => cases h
    case h_1 d _ =>
    split at h
    case isTrue hd => cases h; exact ⟨y, m, d, hd, rfl⟩
    case isFalse   => cases h
  case h_2 => cases h

theorem mem_dates : (y, m, d) ∈ dates ↔ (1970 ≤ y ∧ y ≤ 9999) ∧ (1 ≤ m ∧ m ≤ 12) ∧ (1 ≤ d ∧ d ≤ 31) := by
  rw [dates]
  simp only [List.mem_flatMap, List.mem_map, List.mem_range, Prod.mk.injEq]
  constructor
  · rintro ⟨y, hy, m, hm, d, hd, rfl, rfl, rfl⟩
    omega
  · intro h
    exact ⟨y - 1970, by omega, m - 1, by omega, d - 1, by omega, by omega, by omega, by omega⟩

theorem of_dateOf (h : dateOf instant = some (y, m, d)) :
    ((1970 ≤ y ∧ y ≤ 9999) ∧ (1 ≤ m ∧ m ≤ 12) ∧ (1 ≤ d ∧ d ≤ 31)) ∧ daysFromCivil y m d * 86400000 = instant := by
  rw [dateOf] at h
  have found := List.find?_some h
  exact ⟨mem_dates.mp (List.mem_of_find?_eq_some h), of_decide_eq_true found⟩

theorem dateOf_none (h : dateOf instant = none) (hd : (y, m, d) ∈ dates) :
    daysFromCivil y m d * 86400000 ≠ instant := by
  rw [dateOf] at h
  have other := List.find?_eq_none.mp h _ hd
  exact fun he => other (decide_eq_true he)

theorem parseDate_dateText (h : IsDate instant) : parseDate (dateText instant) = .ok instant := by
  obtain ⟨y, m, d, ⟨hy, hy', hm, hm', hd, hd'⟩, he⟩ := h
  unfold dateText
  cases hs : dateOf instant
  case none =>
    have hmem : (y.toNat, m.toNat, d.toNat) ∈ dates := mem_dates.mpr (by omega)
    have other := dateOf_none hs hmem
    have hy := Int.toNat_of_nonneg (show 0 ≤ y by omega)
    have hm := Int.toNat_of_nonneg (show 0 ≤ m by omega)
    have hd := Int.toNat_of_nonneg (show 0 ≤ d by omega)
    rw [hy, hm, hd] at other
    exact absurd he other
  case some date =>
    obtain ⟨y', m', d'⟩ := date
    have ⟨range, same⟩ := of_dateOf hs
    have plain : ∀ n, ∀ c ∈ decimal n, (decide (c = '-') || decide (c = '/')) = false := by
      intro n c hc
      have hyphen : c ≠ '-' := fun h => decimal_not_mem (c := '-') (by decide) (h ▸ hc)
      have slash : c ≠ '/' := fun h => decimal_not_mem (c := '/') (by decide) (h ▸ hc)
      simp [hyphen, slash]
    have parts : (decimal y' ++ '-' :: (decimal m' ++ '-' :: decimal d')).splitOnP
        (fun c => decide (c = '-') || decide (c = '/')) = [decimal y', decimal m', decimal d'] := by
      rw [List.splitOnP_append_cons_of_forall_mem (plain _) _ (by decide),
        List.splitOnP_append_cons_of_forall_mem (plain _) _ (by decide), List.splitOnP_eq_singleton (plain _)]
    rw [parseDate.eq_def, String.toList_ofList, parts]
    simp only [parseI64_decimal (show y' < 2 ^ 63 by omega), parseI64_decimal (show m' < 2 ^ 63 by omega),
      parseI64_decimal (show d' < 2 ^ 63 by omega)]
    rw [if_pos (by omega), same]
    rfl

-- Terms

-- A token that can stand after the name of a field.
inductive IsValue : Kind → String → Prop
  | word {value : String} (h : IsPlain value) : IsValue (.word value) value
  | quoted {value : String} (h : '"' ∉ value.toList) : IsValue (.quoted value) value

theorem isValue_valueKind (h : '"' ∉ v.toList) : IsValue (valueKind v) v := by
  rw [valueKind]
  split
  case isTrue hp => exact .word hp
  case isFalse   => exact .quoted h

-- A term is printed as the name of a field and a value from which it is made again.
structure Reprinted (e : SearchExpr) (f : String) (k : Kind) (v : String) : Prop where
  kinds : e.termKinds = [.field f, k]
  known : f ∈ FIELDS
  value : IsValue k v
  again : fieldExpr f v = .ok e

theorem isPlain_decimal (h : ∀ c ∈ t, isWordChar c = true) : IsPlain (.ofList (decimal n ++ t)) := by
  refine ⟨by simp [decimal_ne_nil], ?_⟩
  rw [String.toList_ofList, List.all_append, Bool.and_eq_true]
  refine ⟨List.all_eq_true.mpr fun c hc => ?_, List.all_eq_true.mpr h⟩
  have digit := isDigit_decimal hc
  have range : ∀ d : Char, d.isDigit = true → isWordChar d = true := by
    intro d hd
    simp only [Char.isDigit, Bool.and_eq_true, decide_eq_true_eq, UInt32.le_iff_toNat_le] at hd
    have low : ('0'.val : UInt32).toNat = 48 := rfl
    have high : ('9'.val : UInt32).toNat = 57 := rfl
    have number : d.toNat = d.val.toNat := rfl
    have blank : isWhitespace d = false := by
      simp only [isWhitespace, Bool.or_eq_false_iff, Bool.and_eq_false_iff, decide_eq_false_iff_not]
      omega
    have other : ∀ c : Char, c.isDigit = false → d ≠ c := by
      rintro c hc rfl
      simp [Char.isDigit, UInt32.le_iff_toNat_le] at hc
      omega
    simp [isWordChar, blank, other '(' (by decide), other ')' (by decide), other '"' (by decide)]
  exact range c digit

theorem isPlain_dateText (h : IsDate instant) : IsPlain (dateText instant) := by
  have parses := parseDate_dateText h
  unfold dateText at parses ⊢
  cases hs : dateOf instant
  case none =>
    rw [hs] at parses
    cases parses
  case some date =>
    have separator : isWordChar '-' = true := by decide
    have digits := fun n => (isPlain_decimal (n := n) (t := []) nofun).right
    simp only [List.append_nil, String.toList_ofList] at digits
    refine ⟨by simp [decimal_ne_nil], ?_⟩
    simp [List.all_append, List.all_cons, digits, separator, -List.all_eq_true]

theorem isPlain_mailbox (mailbox : Mailbox) : IsPlain mailbox.text := by
  cases mailbox <;> decide

theorem isPlain_flag (flag : Flag) : IsPlain flag.text := by
  cases flag <;> decide

theorem lift_eq_ok {x : Except ParseProblem α} : Fault.lift x = .ok a ↔ x = .ok a := by
  cases x <;> simp [Fault.lift, Except.mapError]

-- What a field makes of a value is printed so that the field makes it again.
theorem reprinted_of_fieldExpr (h : fieldExpr f v = .ok e) (hv : '"' ∉ v.toList) :
    ∃ f' k v', Reprinted e f' k v' := by
  have word : ∀ {e : SearchExpr} {f v : String}, e.termKinds = [.field f, .word v] → f ∈ FIELDS → IsPlain v → fieldExpr f v = .ok e →
      ∃ f' k v', Reprinted e f' k v' := fun kinds known plain again => ⟨_, _, _, kinds, known, .word plain, again⟩
  have value := isValue_valueKind hv
  have date : ∀ {instant}, IsDate instant → Fault.lift (parseDate (dateText instant)) = .ok instant :=
    fun hd => lift_eq_ok.mpr (parseDate_dateText hd)
  have size : ∀ bytes : UInt64, Fault.lift (parseSize (.ofList (decimal bytes.toNat))) = .ok bytes := by
    intro bytes
    rw [lift_eq_ok, parseSize_decimal bytes.toNat_lt, UInt64.ofNat_toNat]
  have age : ∀ days : UInt32, parseAge (.ofList (decimal days.toNat ++ ['d'])) = .ok days := by
    intro days
    rw [parseAge_decimal days.toNat_lt, UInt32.ofNat_toNat]
  have plainSize := fun bytes : UInt64 => isPlain_decimal (n := bytes.toNat) (t := []) nofun
  have plainAge := fun days : UInt32 => isPlain_decimal (n := days.toNat) (t := ['d']) (List.all_eq_true.mp (by decide))
  simp only [List.append_nil] at plainSize
  rw [fieldExpr.eq_def] at h
  dsimp only at h
  split at h
  case h_8 =>
    obtain ⟨mailbox, rfl⟩ : ∃ mailbox, e = .in mailbox := by
      split at h <;> cases h <;> exact ⟨_, rfl⟩
    exact word rfl (by decide) (isPlain_mailbox mailbox) (by cases mailbox <;> rfl)
  case h_9 =>
    obtain ⟨flag, rfl⟩ : ∃ flag, e = .is flag := by
      split at h <;> cases h <;> exact ⟨_, rfl⟩
    exact word rfl (by decide) (isPlain_flag flag) (by cases flag <;> rfl)
  case h_10 =>
    obtain rfl : e = .hasAttachment := by split at h <;> cases h <;> rfl
    exact word rfl (by decide) (by decide) rfl
  case h_11 =>
    obtain ⟨instant, hd, h⟩ := Except.bind_eq_ok.mp h
    cases h
    have hd := isDate_of_parseDate (lift_eq_ok.mp hd)
    exact word rfl (by decide) (isPlain_dateText hd) (Except.bind_eq_ok.mpr ⟨_, date hd, rfl⟩)
  case h_12 =>
    obtain ⟨instant, hd, h⟩ := Except.bind_eq_ok.mp h
    cases h
    have hd := isDate_of_parseDate (lift_eq_ok.mp hd)
    exact word rfl (by decide) (isPlain_dateText hd) (Except.bind_eq_ok.mpr ⟨_, date hd, rfl⟩)
  case h_13 =>
    obtain ⟨days, _, h⟩ := Except.bind_eq_ok.mp h
    cases h
    exact word rfl (by decide) (plainAge days) (Except.bind_eq_ok.mpr ⟨_, age days, rfl⟩)
  case h_14 =>
    obtain ⟨days, _, h⟩ := Except.bind_eq_ok.mp h
    cases h
    exact word rfl (by decide) (plainAge days) (Except.bind_eq_ok.mpr ⟨_, age days, rfl⟩)
  case h_15 =>
    obtain ⟨bytes, _, h⟩ := Except.bind_eq_ok.mp h
    cases h
    exact word rfl (by decide) (plainSize bytes) (Except.bind_eq_ok.mpr ⟨_, size bytes, rfl⟩)
  case h_16 =>
    obtain ⟨bytes, _, h⟩ := Except.bind_eq_ok.mp h
    cases h
    exact word rfl (by decide) (plainSize bytes) (Except.bind_eq_ok.mpr ⟨_, size bytes, rfl⟩)
  case h_17 => cases h
  all_goals
    cases h
    exact ⟨_, _, v, rfl, by decide, value, rfl⟩

-- Trees

-- A word that is read as text wherever a blank follows.
structure IsText (w : String) : Prop where
  plain : IsPlain w
  minus : w.toList.head? = some '-' → w.toList.tail = []
  notOr : ¬(w.toList = ['O', 'R'] ∨ w.toList = ['|'])
  field : fieldOf w.toList = none

-- The trees that a query can stand for, but for the one of the empty query.
inductive Printable : SearchExpr → Prop
  | and (h : 2 ≤ all.length) : (∀ e ∈ all, Printable e) → Printable (.and all)
  | or (h : 2 ≤ any.length) : (∀ e ∈ any, Printable e) → Printable (.or any)
  | not : Printable e → Printable (.not e)
  | text (h : IsText w) : Printable (.text w)
  | phrase (h : '"' ∉ q.toList) : Printable (.phrase q)
  | term (h : Reprinted e f k v) : Printable e

-- Tokens whose texts are those of a query: a word after the name of a field need not be text.
def WellSpelled : List Kind → Prop
  | []                                     => True
  | .field _ :: .word v :: ks              => '"' ∉ v.toList ∧ WellSpelled ks
  | .field _ :: .quoted v :: ks            => '"' ∉ v.toList ∧ WellSpelled ks
  | .field _ :: _                          => False
  | .word w :: ks                          => IsText w ∧ WellSpelled ks
  | .quoted q :: ks                        => '"' ∉ q.toList ∧ WellSpelled ks
  | .minus :: ks | .open :: ks | .close :: ks | .or :: ks => WellSpelled ks

theorem splitOnce_eq (h : splitOnce sep w = some (a, b)) : w = a ++ sep :: b := by
  induction w generalizing a
  case nil => cases h
  case cons c cs ih =>
    rw [splitOnce] at h
    split at h
    case isTrue hc  => cases h; rw [hc]; rfl
    case isFalse hc =>
      obtain ⟨⟨a, b⟩, hs, h⟩ := Option.map_eq_some_iff.mp h
      cases h
      exact congrArg (c :: ·) (ih hs)

theorem fieldOf_eq (h : fieldOf w = some (f, v)) : w = f.toList ++ ':' :: v := by
  rw [fieldOf.eq_def] at h
  split at h
  case h_1 => cases h
  case h_2 hs =>
    split at h
    case isTrue  => cases h; rw [String.toList_ofList]; exact splitOnce_eq hs
    case isFalse => cases h

theorem IsWord.isText (h : IsWord w cs) (ho : ¬(w = ['O', 'R'] ∨ w = ['|'])) (hf : fieldOf w = none) :
    IsText (.ofList w) := by
  constructor
  case plain => exact ⟨by simpa using h.nonempty, by simpa using h.chars⟩
  case minus =>
    rw [String.toList_ofList]
    intro hm
    cases hw : w.tail
    case nil       => rfl
    case cons d ds =>
      have blank := h.minus hm d (by rw [hw]; rfl)
      have := h.chars d (List.mem_of_mem_tail (hw ▸ List.mem_cons_self))
      simp [isWordChar, blank] at this
  case notOr => simpa using ho
  case field => simpa using hf

theorem Lexes.wellSpelled (h : Lexes cs ks) : WellSpelled ks := by
  induction h
  case nil                      => trivial
  case blank ih                 => exact ih
  case «open» ih | close ih     => exact ih
  case minus ih                 => exact ih
  case quoted hq _ ih           => exact ⟨by simpa using hq, ih⟩
  case or ih                    => exact ih
  case word hw ho hf _ ih       => exact ⟨hw.isText ho hf, ih⟩
  case fieldQuoted hq _ ih      => exact ⟨by simpa using hq, ih⟩
  case fieldWord hw hf _ _ ih   =>
    refine ⟨fun hq => ?_, ih⟩
    rw [String.toList_ofList] at hq
    have := hw.chars '"' (fieldOf_eq hf ▸ List.mem_append_right _ (List.mem_cons_of_mem _ hq))
    exact absurd this (by decide)

theorem printable_collect (h : ∀ e ∈ es, Printable e) (hes : es ≠ []) :
    Printable (collectAnd es) ∧ Printable (collectOr es) := by
  match es with
  | []          => exact absurd rfl hes
  | [e]         => exact ⟨h e (List.mem_singleton_self e), h e (List.mem_singleton_self e)⟩
  | _ :: _ :: _ => exact ⟨.and (by simp) h, .or (by simp) h⟩

-- The induction goes through with whatever follows, since the name of a field needs the token after it.
theorem Derives.printable (h : Derives rule ks es) (hs : WellSpelled (ks ++ ks')) :
    (∀ e ∈ es, Printable e) ∧ WellSpelled ks' := by
  induction h generalizing ks'
  case or ha hl =>
    rw [List.append_assoc] at hs
    have ⟨first, hs⟩ := ha hs
    have ⟨rest, hs⟩ := hl hs
    have all := List.forall_mem_cons.mpr ⟨List.forall_mem_singleton.mp first, rest⟩
    exact ⟨List.forall_mem_singleton.mpr (printable_collect all (List.cons_ne_nil _ _)).right, hs⟩
  case noAlternative | noTerm => exact ⟨nofun, hs⟩
  case alternative ha hl =>
    rw [List.cons_append, List.append_assoc] at hs
    have ⟨first, hs⟩ := ha hs
    have ⟨rest, hs⟩ := hl hs
    exact ⟨List.forall_mem_cons.mpr ⟨List.forall_mem_singleton.mp first, rest⟩, hs⟩
  case and hes hl =>
    have ⟨all, hs⟩ := hl hs
    exact ⟨List.forall_mem_singleton.mpr (printable_collect all hes).left, hs⟩
  case term hu hl =>
    rw [List.append_assoc] at hs
    have ⟨first, hs⟩ := hu hs
    have ⟨rest, hs⟩ := hl hs
    exact ⟨List.forall_mem_cons.mpr ⟨List.forall_mem_singleton.mp first, rest⟩, hs⟩
  case not hu =>
    have ⟨he, hs⟩ := hu hs
    exact ⟨List.forall_mem_singleton.mpr (.not (List.forall_mem_singleton.mp he)), hs⟩
  case plain ha => exact ha hs
  case group ho =>
    rw [List.cons_append, List.append_assoc] at hs
    have ⟨he, hs⟩ := ho hs
    exact ⟨he, hs⟩
  case phrase => exact ⟨List.forall_mem_singleton.mpr (.phrase hs.left), hs.right⟩
  case text   => exact ⟨List.forall_mem_singleton.mpr (.text hs.left), hs.right⟩
  case fieldWord hf =>
    have ⟨_, _, _, reprinted⟩ := reprinted_of_fieldExpr hf hs.left
    exact ⟨List.forall_mem_singleton.mpr (.term reprinted), hs.right⟩
  case fieldQuoted hf =>
    have ⟨_, _, _, reprinted⟩ := reprinted_of_fieldExpr hf hs.left
    exact ⟨List.forall_mem_singleton.mpr (.term reprinted), hs.right⟩

theorem Assigns.printable (h : Assigns input e) : e = .and [] ∨ Printable e := by
  obtain ⟨ks, hl, ⟨_, he⟩ | hd⟩ := h
  · exact .inl he
  · have spelled := hl.wellSpelled
    rw [← List.append_nil ks] at spelled
    exact .inr (List.forall_mem_singleton.mp (hd.printable spelled).left)

-- Printing

theorem Reprinted.kinds_eq (h : Reprinted e f k v) (b : Binding) : e.kinds b = e.termKinds := by
  have kinds := h.kinds
  cases e
  case and | or | not => cases kinds
  all_goals rw [SearchExpr.kinds.eq_def]

namespace SearchExpr

theorem derives_term (h : Reprinted e f k v) : Derives .atom e.termKinds [e] := by
  rw [h.kinds]
  cases h.value
  case word   => exact .fieldWord h.again
  case quoted => exact .fieldQuoted h.again

-- A tree that is printed to hold together as an operand does in every place.
theorem derives_of_unary (h : Derives .unary ks [e]) : Derives .and ks [e] ∧ Derives .or ks [e] := by
  have and : Derives .and (ks ++ []) [collectAnd [e]] := .and (.term h .noTerm) (List.cons_ne_nil e [])
  rw [List.append_nil] at and
  have or : Derives .or (ks ++ []) [collectOr [e]] := .or and .noAlternative
  rw [List.append_nil] at or
  exact ⟨and, or⟩

def DerivesPrinted (e : SearchExpr) : Prop :=
  Derives .or (e.kinds .or) [e] ∧ Derives .and (e.kinds .and) [e] ∧ Derives .unary (e.kinds .unary) [e]

theorem derivesPrinted_of_unary (h : Derives .unary (e.kinds .unary) [e]) (he : ∀ b, e.kinds b = e.kinds .unary) :
    e.DerivesPrinted := by
  have ⟨conjunction, disjunction⟩ := derives_of_unary h
  rw [DerivesPrinted, he .or, he .and]
  exact ⟨disjunction, conjunction, h⟩

theorem derives_juxtaposed (h : ∀ e ∈ es, DerivesPrinted e) : Derives .terms (juxtaposed es) es := by
  induction es
  case nil => rw [juxtaposed]; exact .noTerm
  case cons e es ih =>
    have ⟨here, there⟩ := List.forall_mem_cons.mp h
    rw [juxtaposed]
    exact .term here.right.right (ih there)

theorem derives_moreAlternatives (h : ∀ e ∈ es, DerivesPrinted e) :
    Derives .alternatives (moreAlternatives es) es := by
  induction es
  case nil => rw [moreAlternatives]; exact .noAlternative
  case cons e es ih =>
    have ⟨here, there⟩ := List.forall_mem_cons.mp h
    rw [moreAlternatives]
    exact .alternative here.right.left (ih there)

-- What is printed of a tree, the grammar makes that tree of again.
theorem derivesPrinted (h : Printable e) : e.DerivesPrinted := by
  induction h
  case and all two _ ih =>
    have collect : collectAnd all = .and all := by
      match all with
      | _ :: _ :: _ => rfl
    have terms : Derives .and (juxtaposed all) [.and all] := by
      have := Derives.and (derives_juxtaposed ih) (List.ne_nil_of_length_pos (by omega))
      rwa [collect] at this
    have alone : Derives .or (juxtaposed all ++ []) [collectOr [.and all]] := .or terms .noAlternative
    rw [List.append_nil] at alone
    rw [DerivesPrinted, kinds, kinds, kinds]
    exact ⟨alone, terms, .plain (.group alone)⟩
  case or any two _ ih =>
    have alone : Derives .or (alternatives any) [.or any] := by
      match any with
      | e :: e' :: es =>
        have ⟨here, there⟩ := List.forall_mem_cons.mp ih
        rw [alternatives]
        exact .or here.right.left (derives_moreAlternatives there)
    have group := derives_of_unary (.plain (.group alone))
    rw [DerivesPrinted, kinds, kinds, kinds]
    exact ⟨alone, group.left, .plain (.group alone)⟩
  case not ih =>
    refine derivesPrinted_of_unary ?_ fun b => by rw [kinds, kinds]
    rw [kinds]
    exact .not ih.right.right
  case text w _ =>
    refine derivesPrinted_of_unary ?_ fun b => by rw [kinds.eq_def, kinds.eq_def]
    exact .plain .text
  case phrase q _ =>
    refine derivesPrinted_of_unary ?_ fun b => by rw [kinds.eq_def, kinds.eq_def]
    exact .plain .phrase
  case term reprinted =>
    refine derivesPrinted_of_unary ?_ fun b => by rw [reprinted.kinds_eq, reprinted.kinds_eq]
    rw [reprinted.kinds_eq]
    exact .plain (derives_term reprinted)

end SearchExpr

-- The text of tokens is read as these tokens, whatever follows.
def Spells (ks : List Kind) : Prop :=
  ∀ cs ks', Lexes cs ks' → Lexes (ks.flatMap Kind.render ++ cs) (ks ++ ks')

theorem Spells.append (h : Spells ks) (h' : Spells ks') : Spells (ks ++ ks') := by
  intro cs ks'' hl
  rw [List.flatMap_append, List.append_assoc, List.append_assoc]
  exact h _ _ (h' _ _ hl)

theorem lexes_blank (h : Lexes cs ks) : Lexes (' ' :: cs) ks :=
  .blank (by decide) h

theorem wordEnds_blank : WordEnds (' ' :: cs) :=
  fun _ hc => Option.some.inj hc ▸ by decide

theorem spells_quoted (h : '"' ∉ q.toList) : Spells [.quoted q] := by
  intro cs ks hl
  have quoted := Lexes.quoted h (lexes_blank hl)
  rw [String.ofList_toList] at quoted
  simpa [Kind.render] using quoted

theorem spells_text (h : IsText w) : Spells [.word w] := by
  intro cs ks hl
  have word : IsWord w.toList (' ' :: cs) := by
    refine ⟨h.plain.left, List.all_eq_true.mp h.plain.right, wordEnds_blank, fun hm c hc => ?_⟩
    rw [h.minus hm] at hc
    exact Option.some.inj hc ▸ by decide
  have word := Lexes.word word h.notOr h.field (lexes_blank hl)
  rw [String.ofList_toList] at word
  simpa [Kind.render] using word

theorem spells_or : Spells [.or] := by
  intro cs ks hl
  exact Lexes.or (w := ['O', 'R']) (.inl rfl) wordEnds_blank (lexes_blank hl)

theorem spells_open : Spells [.open] :=
  fun _ _ hl => .open hl

theorem spells_close : Spells [.close] :=
  fun _ _ hl => .close (lexes_blank hl)

theorem splitOnce_append (h : sep ∉ a) : splitOnce sep (a ++ sep :: b) = some (a, b) := by
  induction a
  case nil => simp [splitOnce]
  case cons c cs ih =>
    rw [List.mem_cons, not_or] at h
    rw [List.cons_append, splitOnce, if_neg (Ne.symm h.left), ih h.right]
    rfl

-- The names of the fields are words in lower case.
theorem fields_are_words : ∀ f ∈ FIELDS, ':' ∉ f.toList ∧ f.toList.all isWordChar = true ∧ f.toList ≠ [] ∧
    f.toList.head? ≠ some '-' ∧ asciiLower f = f := by
  decide

theorem fieldOf_append (hf : f ∈ FIELDS) : fieldOf (f.toList ++ ':' :: v) = some (f, v) := by
  have ⟨colon, _, _, _, lower⟩ := fields_are_words f hf
  rw [fieldOf, splitOnce_append colon]
  simp [lower, hf]

theorem isWord_field (hf : f ∈ FIELDS) (hv : ∀ c ∈ v, isWordChar c = true) (he : WordEnds t) :
    IsWord (f.toList ++ ':' :: v) t := by
  have ⟨_, chars, nonempty, minus, _⟩ := fields_are_words f hf
  refine ⟨by simp, fun c hc => ?_, he, fun hm => ?_⟩
  · obtain hc | hc := List.mem_append.mp hc
    · exact List.all_eq_true.mp chars c hc
    · obtain rfl | hc := List.mem_cons.mp hc
      · decide
      · exact hv c hc
  · rw [List.head?_append_of_ne_nil _ nonempty] at hm
    exact absurd hm minus

theorem spells_term (h : Reprinted e f k v) : Spells e.termKinds := by
  rw [h.kinds]
  intro cs ks hl
  have ⟨_, _, _, _, lower⟩ := fields_are_words f h.known
  cases h.value
  case word plain =>
    have word := isWord_field h.known (List.all_eq_true.mp plain.right) (wordEnds_blank : WordEnds (' ' :: cs))
    have field := Lexes.fieldWord word (fieldOf_append h.known) plain.left (lexes_blank hl)
    rw [String.ofList_toList, lower] at field
    simpa [Kind.render] using field
  case quoted notQuote =>
    have word := isWord_field h.known (v := []) nofun
      (t := '"' :: (v.toList ++ '"' :: ' ' :: cs)) (fun _ hc => Option.some.inj hc ▸ by decide)
    have field := Lexes.fieldQuoted word (fieldOf_append h.known) notQuote (lexes_blank hl)
    rw [String.ofList_toList, lower] at field
    simpa [Kind.render] using field

theorem spells_nil : Spells [] :=
  fun _ _ hl => hl

theorem visible_of_plain (h : IsPlain w) (ks : List Char) : ∃ c cs, w.toList ++ ks = c :: cs ∧ isWhitespace c = false := by
  obtain ⟨c, cs, hw⟩ := List.exists_cons_of_ne_nil h.left
  have hc := List.all_eq_true.mp h.right c (hw ▸ List.mem_cons_self)
  refine ⟨c, cs ++ ks, by rw [hw]; rfl, ?_⟩
  simp only [isWordChar, Bool.and_eq_true, Bool.not_eq_true'] at hc
  exact hc.left.left.left

namespace SearchExpr

-- An operand does not start with a blank, so that a `-` before it negates it.
theorem visible (h : Printable e) :
    ∃ c cs, (e.kinds .unary).flatMap Kind.render = c :: cs ∧ isWhitespace c = false := by
  cases h
  case and | or => rw [kinds]; exact ⟨'(', _, rfl, by decide⟩
  case not      => rw [kinds]; exact ⟨'-', _, rfl, by decide⟩
  case text w h =>
    rw [kinds.eq_def]
    have ⟨c, cs, hw, hc⟩ := visible_of_plain h.plain [' ']
    exact ⟨c, cs, by simpa [termKinds, Kind.render] using hw, hc⟩
  case phrase   => rw [kinds.eq_def]; exact ⟨'"', _, rfl, by decide⟩
  case term f k v h =>
    have ⟨_, chars, nonempty, _⟩ := fields_are_words f h.known
    have ⟨c, cs, hw, hc⟩ := visible_of_plain ⟨nonempty, chars⟩ (':' :: k.render)
    rw [h.kinds_eq, h.kinds]
    exact ⟨c, cs, by simpa [Kind.render] using hw, hc⟩

theorem spells_not (h : Printable e) (hs : Spells (e.kinds .unary)) : Spells (.minus :: e.kinds .unary) := by
  intro cs ks hl
  have ⟨c, cs', hv, hc⟩ := visible h
  have operand := hs _ _ hl
  rw [hv] at operand
  have negated := Lexes.minus hc operand
  rw [List.flatMap_cons, hv]
  exact negated

theorem spells_juxtaposed (h : ∀ e ∈ es, ∀ b, Spells (kinds b e)) : Spells (juxtaposed es) := by
  induction es
  case nil => rw [juxtaposed]; exact spells_nil
  case cons e es ih =>
    have ⟨here, there⟩ := List.forall_mem_cons.mp h
    rw [juxtaposed]
    exact .append (here .unary) (ih there)

theorem spells_moreAlternatives (h : ∀ e ∈ es, ∀ b, Spells (kinds b e)) : Spells (moreAlternatives es) := by
  induction es
  case nil => rw [moreAlternatives]; exact spells_nil
  case cons e es ih =>
    have ⟨here, there⟩ := List.forall_mem_cons.mp h
    rw [moreAlternatives]
    exact .append spells_or (.append (here .and) (ih there))

theorem spells_alternatives (h : ∀ e ∈ es, ∀ b, Spells (kinds b e)) : Spells (alternatives es) := by
  cases es
  case nil => rw [alternatives]; exact spells_nil
  case cons e es =>
    have ⟨here, there⟩ := List.forall_mem_cons.mp h
    rw [alternatives]
    exact .append (here .and) (spells_moreAlternatives there)

theorem spells_group (h : Spells ks) : Spells (.open :: (ks ++ [.close])) :=
  spells_open.append (h.append spells_close)

-- The text that is printed of a tree is read as the tokens that are printed.
theorem spells_kinds (h : Printable e) (b : Binding) : Spells (e.kinds b) := by
  induction h generalizing b
  case and ih =>
    rw [kinds]
    split
    case isTrue  => exact spells_group (spells_juxtaposed ih)
    case isFalse => exact spells_juxtaposed ih
  case or ih =>
    rw [kinds]
    split
    case isTrue  => exact spells_alternatives ih
    case isFalse => exact spells_group (spells_alternatives ih)
  case not h ih    => rw [kinds]; exact spells_not h (ih .unary)
  case text h      => rw [kinds.eq_def]; exact spells_text h
  case phrase h    => rw [kinds.eq_def]; exact spells_quoted h
  case term h      => rw [h.kinds_eq]; exact spells_term h

theorem assigns_print (h : Printable e) : Assigns e.print e := by
  refine ⟨e.kinds .or, ?_, .inr (derivesPrinted h).left⟩
  have lexes := spells_kinds h .or _ _ .nil
  rw [List.append_nil, List.append_nil] at lexes
  rwa [print, String.toList_ofList]

theorem assigns_print_empty : Assigns (print (and [])) (and []) := by
  refine ⟨[], ?_, .inl ⟨rfl, rfl⟩⟩
  rw [print, kinds, juxtaposed]
  exact .nil

end SearchExpr

-- `parse` returns the tree that the grammar assigns to a query, and gives that tree back when it is
-- printed and parsed again.
theorem parse_grammar :
    (∀ input e, parse input = .ok e ↔ Assigns input e) ∧
    (∀ e, (∃ input, parse input = .ok e) → parse e.print = .ok e) := by
  refine ⟨fun _ _ => parse_iff, fun e ⟨input, h⟩ => parse_iff.mpr ?_⟩
  obtain rfl | printable := (parse_iff.mp h).printable
  · exact SearchExpr.assigns_print_empty
  · exact SearchExpr.assigns_print printable

theorem parse_grammar_negation : parse (SearchExpr.print (.not (.text "mail"))) = .ok (.not (.text "mail")) := by
  refine parse_grammar.right _ ⟨"-mail", parse_iff.mpr ⟨[.minus, .word "mail"], ?_, .inr ?_⟩⟩
  · have word : IsWord ['m', 'a', 'i', 'l'] [] := ⟨by decide, List.all_eq_true.mp (by decide), nofun, by decide⟩
    exact .minus (by decide) (.word word (by decide) rfl .nil)
  · exact (SearchExpr.derives_of_unary (.not (.plain .text))).right

end Kaluta
