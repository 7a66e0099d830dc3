import Kaluta.Lib.Utf8

-- Headers that old mailers sent as raw 8-bit text.
namespace Kaluta.Mime

open Utf8

-- `windows(pat.len()).position(|w| w == pat)`
def position (pat : Bytes) : Bytes → Option Nat
  | []        => none
  | b :: rest => if pat.isPrefixOf (b :: rest) then some 0 else (position pat rest).map (· + 1)

-- `char::from`, as it is encoded.
def latin1 (bytes : Bytes) : Bytes :=
  bytes.flatMap fun b => String.utf8EncodeChar (Char.ofNat b.toNat)

theorem latin1_cons (b : UInt8) (bytes : Bytes) : latin1 (b :: bytes) = latin1 [b] ++ latin1 bytes := by
  simp [latin1]

-- UTF-8 where the bytes are valid, and what is made of the others.
def lossy (decode : Bytes → Bytes) (rest : Bytes) : Bytes :=
  if rest = [] then []
  else match _h : fromUtf8 rest with
    | .ok ()   => rest
    | .error e =>
      let bad := rest.drop e.validUpTo
      let n := e.errorLen.getD bad.length
      rest.take e.validUpTo ++ decode (bad.take n) ++ lossy decode (bad.drop n)
  termination_by rest.length
  decreasing_by
    obtain ⟨cs, bad, rfl, valid, next⟩ := fromUtf8_error _h
    have ⟨pos, le, _⟩ := nextChar_error next
    simp only [valid, List.drop_left, List.length_drop, List.length_append]
    omega

def CRLF2 : Bytes := [13, 10, 13, 10]

def LF2 : Bytes := [10, 10]

-- Where the headers are taken to end.
def cut (raw : Bytes) : Nat :=
  ((position CRLF2 raw).or (position LF2 raw)).getD raw.length

-- Bytes of the header block that are not valid UTF-8 are decoded as Latin-1.
def repair8bitHeaders (raw : Bytes) : Bytes :=
  let (head, body) := raw.splitAt (cut raw)
  match fromUtf8 head with
  | .ok ()   => raw
  | .error _ => lossy latin1 head ++ body

-- What valid text becomes: itself, with each byte that no character has as a character of its own.
inductive Repaired : Bytes → Bytes → Prop
  | nil : Repaired [] []
  | char (c : Char) : Repaired l l' → Repaired (String.utf8EncodeChar c ++ l) (String.utf8EncodeChar c ++ l')
  | byte : (∀ c, ¬InFront c (b :: l)) → Repaired l l' → Repaired (b :: l) (latin1 [b] ++ l')

namespace Repaired

theorem valid (h : Repaired l l') : Valid l' := by
  induction h
  case nil => exact ⟨[], rfl⟩
  case char c _ ih => exact (valid_char_append c _).mpr ih
  case byte b _ _ _ _ ih =>
    rw [latin1, List.flatMap_singleton]
    exact (valid_char_append _ _).mpr ih

theorem chars (cs : List Char) (h : Repaired l l') : Repaired (encode cs ++ l) (encode cs ++ l') := by
  induction cs
  case nil            => exact h
  case cons c cs ih =>
    rw [encode_cons, List.append_assoc, List.append_assoc]
    exact .char c ih

theorem bytes (h : ∀ i < n, ∃ e, nextChar (l.drop i) = .error e) (le : n ≤ l.length) (rest : Repaired (l.drop n) l') :
    Repaired l (latin1 (l.take n) ++ l') := by
  induction n generalizing l
  case zero => exact rest
  case succ n ih =>
    cases l
    case nil => cases le
    case cons b l =>
      have := ih (l := l) (fun i lt => h (i + 1) (Nat.succ_lt_succ lt)) (Nat.le_of_succ_le_succ le) rest
      have none := (not_inFront_iff (List.cons_ne_nil b l)).mpr (h 0 (Nat.succ_pos n))
      rw [List.take_succ_cons, latin1_cons, List.append_assoc]
      exact .byte none this

end Repaired

theorem lossy_ok (h : fromUtf8 rest = .ok ()) : lossy decode rest = rest := by
  rw [lossy]
  split
  case isTrue is => rw [is]
  case isFalse   =>
    split
    case h_1     => rfl
    case h_2 is  => cases is.symm.trans h

theorem lossy_error (h : fromUtf8 rest = .error e) : lossy decode rest =
    let bad := rest.drop e.validUpTo
    let n := e.errorLen.getD bad.length
    rest.take e.validUpTo ++ decode (bad.take n) ++ lossy decode (bad.drop n) := by
  rw [lossy]
  split
  case isTrue is =>
    rw [is, fromUtf8] at h
    cases h
  case isFalse =>
    split
    case h_1 is => cases is.symm.trans h
    case h_2 is => cases is.symm.trans h; rfl

-- Each round of the loop repairs the bytes that its error is about.
theorem repaired_lossy (bytes : Bytes) : Repaired bytes (lossy latin1 bytes) := by
  cases h : fromUtf8 bytes
  case ok =>
    rw [lossy_ok h]
    obtain ⟨cs, rfl⟩ := fromUtf8_ok.mp h
    simpa using Repaired.nil.chars cs
  case error e =>
    rw [lossy_error h]
    obtain ⟨cs, bad, eq, valid, next⟩ := fromUtf8_error h
    have ⟨pos, le, absent⟩ := nextChar_error next
    have shorter : (bad.drop (e.errorLen.getD bad.length)).length < bytes.length := by
      rw [eq, List.length_drop, List.length_append]
      omega
    have rest := repaired_lossy (bad.drop (e.errorLen.getD bad.length))
    simp only [eq, valid, List.drop_left, List.take_left, List.append_assoc]
    exact .chars cs (.bytes absent le rest)
  termination_by bytes.length
  decreasing_by exact shorter

def IsAscii (b : UInt8) : Prop :=
  b.toNat < 0x80
  deriving Decidable

-- The same ASCII, with something else at the same places.
inductive SameAscii : Bytes → Bytes → Prop
  | nil : SameAscii [] []
  | ascii : IsAscii b → SameAscii l l' → SameAscii (b :: l) (b :: l')
  | other : u ≠ [] → u' ≠ [] → (∀ b ∈ u, ¬IsAscii b) → (∀ b ∈ u', ¬IsAscii b) → SameAscii l l' →
    SameAscii (u ++ l) (u' ++ l')

variable {l l' r r' t t' raw : Bytes}

-- No character goes across to bytes of which the first is ASCII.
def AsciiHead (bytes : Bytes) : Prop :=
  ∀ b ∈ bytes.head?, IsAscii b

theorem not_ascii_of_tail (h : String.utf8EncodeChar c = x :: t) : ∀ b ∈ t, ¬IsAscii b := by
  intro b mem
  rcases ascii_or c with ⟨a, _, single⟩ | all
  · cases single.symm.trans h
    cases mem
  · exact Nat.not_lt.mpr (all b (h ▸ List.mem_cons_of_mem x mem))

-- A character in front of both is in front of the first where it is not empty.
theorem inFront_of_append (ne : l ≠ []) (ascii : AsciiHead r) (h : InFront c (l ++ r)) : InFront c l := by
  rcases List.prefix_or_prefix_of_prefix h (List.prefix_append l r) with short | ⟨s, eq⟩
  · exact short
  · cases s
    case nil => exact ⟨[], by rw [List.append_nil, ← eq, List.append_nil]⟩
    case cons b s =>
      obtain ⟨a, l, rfl⟩ := List.exists_cons_of_ne_nil ne
      obtain ⟨u, eq'⟩ := h
      rw [← eq, List.append_assoc, List.append_cancel_left_eq] at eq'
      refine absurd (ascii b ?_) (not_ascii_of_tail eq.symm b (by simp))
      rw [← eq']
      rfl

theorem Repaired.length_le (h : Repaired l l') : l.length ≤ l'.length := by
  induction h
  case nil                => exact Nat.le_refl 0
  case char c _ ih        => simpa using ih
  case byte b _ _ _ _ ih  =>
    have := (Char.ofNat b.toNat).utf8Size_pos
    simp only [latin1, List.flatMap_singleton, List.length_append, String.length_utf8EncodeChar, List.length_cons]
    omega

theorem Repaired.eq_of_valid (h : Repaired l l') (valid : Valid l) : l' = l := by
  induction h
  case nil         => rfl
  case char c _ ih => rw [ih ((valid_char_append c _).mp valid)]
  case byte absent _ _ =>
    obtain ⟨cs, eq⟩ := valid
    cases cs
    case nil       => cases eq
    case cons c cs => exact absurd ⟨encode cs, eq.symm⟩ (absent c)

theorem Repaired.append (h : Repaired l l') (ascii : AsciiHead r) (h' : Repaired r r') :
    Repaired (l ++ r) (l' ++ r') := by
  induction h
  case nil         => exact h'
  case char c _ ih =>
    rw [List.append_assoc, List.append_assoc]
    exact .char c ih
  case byte absent _ ih =>
    rw [List.append_assoc]
    exact .byte (fun c front => absent c (inFront_of_append (List.cons_ne_nil _ _) ascii front)) ih

theorem Repaired.split (h : Repaired (l ++ r) x) (ascii : AsciiHead r) :
    ∃ l' r', x = l' ++ r' ∧ Repaired l l' ∧ Repaired r r' := by
  generalize eq : l ++ r = bytes at h
  induction h generalizing l
  case nil =>
    obtain ⟨rfl, rfl⟩ := List.append_eq_nil_iff.mp eq
    exact ⟨[], [], rfl, .nil, .nil⟩
  case char bytes x c rest ih =>
    cases l
    case nil      =>
      obtain rfl : r = _ := eq
      exact ⟨[], _, rfl, .nil, .char c rest⟩
    case cons a l =>
      obtain ⟨s, eq'⟩ : InFront c (a :: l) := inFront_of_append (List.cons_ne_nil a l) ascii ⟨bytes, eq.symm⟩
      rw [← eq', List.append_assoc, List.append_cancel_left_eq] at eq
      obtain ⟨l', r', rfl, hl, hr⟩ := ih eq
      exact ⟨_, r', (List.append_assoc ..).symm, eq' ▸ .char c hl, hr⟩
  case byte b bytes x absent rest ih =>
    cases l
    case nil      =>
      obtain rfl : r = _ := eq
      exact ⟨[], _, rfl, .nil, .byte absent rest⟩
    case cons a l =>
      cases eq
      obtain ⟨l', r', rfl, hl, hr⟩ := ih rfl
      refine ⟨_, r', (List.append_assoc ..).symm, .byte (fun c ⟨s, front⟩ => ?_) hl, hr⟩
      exact absent c ⟨s ++ r, by rw [← List.append_assoc, front]; rfl⟩

theorem valid_of_append (h : Valid (l ++ r)) (ascii : AsciiHead r) : Valid l := by
  obtain ⟨l', r', eq, hl, hr⟩ := (repaired_lossy (l ++ r)).split ascii
  rw [lossy_ok (fromUtf8_ok.mpr h)] at eq
  have lengths := congrArg List.length eq
  rw [List.length_append, List.length_append] at lengths
  have := hl.length_le
  have := hr.length_le
  rw [(List.append_inj eq (by omega)).left]
  exact hl.valid

theorem not_ascii_of_absent (h : ∀ c, ¬InFront c (b :: l)) : ¬IsAscii b := by
  intro ascii
  obtain ⟨c, val⟩ := exists_char (.inl (show b.toNat < 0xD800 by rw [IsAscii] at ascii; omega))
  refine h c ⟨l, ?_⟩
  simp only [String.utf8EncodeChar, val, if_pos (Nat.le_of_lt_succ ascii), ofNat_eq rfl, List.singleton_append]

theorem latin1_not_ascii (h : ¬IsAscii b) : latin1 [b] ≠ [] ∧ ∀ x ∈ latin1 [b], ¬IsAscii x := by
  rw [latin1, List.flatMap_singleton]
  refine ⟨encode_ne_nil _, ?_⟩
  have val : (Char.ofNat b.toNat).val.toNat = b.toNat := by
    rw [Char.ofNat, dif_pos (.inl (by have := b.toNat_lt; omega))]
    rfl
  rcases ascii_or (Char.ofNat b.toNat) with ⟨a, ascii, single⟩ | all
  · have := congrArg List.length single
    rw [String.length_utf8EncodeChar, List.length_singleton, Char.utf8Size_eq_one_iff, UInt32.le_iff_toNat_le,
      val] at this
    exact absurd (Nat.lt_succ_of_le this) h
  · exact fun x mem => Nat.not_lt.mpr (all x mem)

theorem Repaired.sameAscii (h : Repaired l l') : SameAscii l l' := by
  induction h
  case nil => exact .nil
  case char c _ ih =>
    rcases ascii_or c with ⟨b, ascii, single⟩ | all
    · simp only [single]
      exact .ascii ascii ih
    · have all b mem := Nat.not_lt.mpr (all b mem)
      exact .other (encode_ne_nil c) (encode_ne_nil c) all all ih
  case byte b l _ absent _ ih =>
    have other := not_ascii_of_absent absent
    have ⟨ne, all⟩ := latin1_not_ascii other
    exact .other (u := [b]) (List.cons_ne_nil b []) ne (by simpa using other) all ih

namespace SameAscii

theorem refl : (l : Bytes) → SameAscii l l
  | []     => .nil
  | b :: l => by
    by_cases ascii : IsAscii b
    · exact .ascii ascii (refl l)
    · have ne := List.cons_ne_nil b []
      exact .other ne ne (by simpa) (by simpa) (refl l)

theorem symm (h : SameAscii l l') : SameAscii l' l := by
  induction h
  case nil                     => exact .nil
  case ascii a _ ih            => exact .ascii a ih
  case other ne ne' all all' _ ih => exact .other ne' ne all' all ih

theorem append (h : SameAscii l l') (h' : SameAscii r r') : SameAscii (l ++ r) (l' ++ r') := by
  induction h
  case nil                     => exact h'
  case ascii a _ ih            => exact .ascii a ih
  case other ne ne' all all' _ ih =>
    rw [List.append_assoc, List.append_assoc]
    exact .other ne ne' all all' ih

theorem isPrefix (h : SameAscii l l') (ascii : ∀ b ∈ pat, IsAscii b) (pre : pat <+: l) : pat <+: l' := by
  induction h generalizing pat
  case nil => exact pre
  all_goals cases pat
  case ascii.nil | other.nil => exact List.nil_prefix
  case ascii.cons ih a pat =>
    obtain ⟨rfl, rest⟩ := List.cons_prefix_cons.mp pre
    exact List.cons_prefix_cons.mpr ⟨rfl, ih (fun b mem => ascii b (List.mem_cons_of_mem a mem)) rest⟩
  case other.cons ne _ other _ _ _ a pat =>
    obtain ⟨b, u, rfl⟩ := List.exists_cons_of_ne_nil ne
    obtain ⟨rfl, _⟩ := List.cons_prefix_cons.mp pre
    exact absurd (ascii a List.mem_cons_self) (other a List.mem_cons_self)

-- A text of ASCII does not begin within other bytes.
theorem isInfix_append (other : ∀ b ∈ u, ¬IsAscii b) (ascii : ∀ b ∈ pat, IsAscii b) (ne : pat ≠ [])
    (inf : pat <:+: u ++ l) : pat <:+: l := by
  induction u
  case nil => exact inf
  case cons a u ih =>
    rcases List.infix_cons_iff.mp inf with pre | inf
    · obtain ⟨b, pat, rfl⟩ := List.exists_cons_of_ne_nil ne
      obtain ⟨rfl, _⟩ := List.cons_prefix_cons.mp pre
      exact absurd (ascii b List.mem_cons_self) (other b List.mem_cons_self)
    · exact ih (fun b mem => other b (List.mem_cons_of_mem a mem)) inf

theorem isInfix (h : SameAscii l l') (ascii : ∀ b ∈ pat, IsAscii b) (ne : pat ≠ []) (inf : pat <:+: l) :
    pat <:+: l' := by
  induction h
  case nil => exact inf
  case ascii b l l' a same ih =>
    rcases List.infix_cons_iff.mp inf with pre | inf
    · exact ((same.ascii a).isPrefix ascii pre).isInfix
    · exact List.infix_cons (ih inf)
  case other u u' _ _ _ _ other _ _ ih =>
    exact (ih (isInfix_append other ascii ne inf)).trans (List.suffix_append u' _).isInfix

end SameAscii

theorem position_eq_some (h : position pat raw = some n) : pat <+: raw.drop n ∧ n < raw.length := by
  induction raw generalizing n
  case nil => cases h
  case cons b rest ih =>
    rw [position] at h
    split at h
    case isTrue pre =>
      cases h
      exact ⟨List.isPrefixOf_iff_prefix.mp pre, Nat.succ_pos _⟩
    case isFalse =>
      obtain ⟨m, is, rfl⟩ := Option.map_eq_some_iff.mp h
      have ⟨pre, lt⟩ := ih is
      exact ⟨pre, Nat.succ_lt_succ lt⟩

theorem position_eq_none (ne : pat ≠ []) : position pat raw = none ↔ ¬pat <:+: raw := by
  induction raw
  case nil => simp [position, ne]
  case cons b rest ih =>
    rw [position, List.infix_cons_iff, not_or, ← ih, ← List.isPrefixOf_iff_prefix]
    split
    case isTrue pre    => simp [pre]
    case isFalse other => simp [other]

theorem position_le (pre : pat <+: raw.drop n) (lt : n < raw.length) : ∃ m ≤ n, position pat raw = some m := by
  induction raw generalizing n
  case nil => cases lt
  case cons b rest ih =>
    rw [position]
    split
    case isTrue => exact ⟨0, Nat.zero_le n, rfl⟩
    case isFalse other =>
      cases n
      case zero => exact absurd (List.isPrefixOf_iff_prefix.mpr pre) other
      case succ n =>
        obtain ⟨m, le, is⟩ := ih pre (Nat.lt_of_succ_lt_succ lt)
        exact ⟨m + 1, Nat.succ_le_succ le, by rw [is]; rfl⟩

end Kaluta.Mime
