import Mathlib.Data.List.Basic
import Mathlib.Tactic.Common

-- Bytes as text, where they are, in the words of Rust's `from_utf8`.
namespace Utf8

abbrev Bytes := List UInt8

-- How many bytes follow a character's first one, and the range of the next.
def lead (a : UInt8) : Option (Nat × Nat × Nat) :=
  let a := a.toNat
  if a < 0x80 then some (0, 0, 0)
  else if a < 0xC2 then none
  else if a < 0xE0 then some (1, 0x80, 0xBF)
  else if a = 0xE0 then some (2, 0xA0, 0xBF)
  else if a = 0xED then some (2, 0x80, 0x9F)
  else if a < 0xF0 then some (2, 0x80, 0xBF)
  else if a = 0xF0 then some (3, 0x90, 0xBF)
  else if a < 0xF4 then some (3, 0x80, 0xBF)
  else if a = 0xF4 then some (3, 0x80, 0x8F)
  else none

-- What follows the bytes of a character read so far: an error has their number, or none at the end of input.
def tails (got : Nat) : Nat → Nat → Nat → Bytes → Except (Option Nat) Nat
  | 0, _, _, _               => .ok got
  | _ + 1, _, _, []          => .error none
  | n + 1, lo, hi, b :: rest =>
    if lo ≤ b.toNat ∧ b.toNat ≤ hi then tails (got + 1) n 0x80 0xBF rest else .error (some got)

-- The length of the character in front, or the error's `error_len`.
def nextChar : Bytes → Except (Option Nat) Nat
  | []        => .ok 0
  | a :: rest =>
    match lead a with
    | none             => .error (some 1)
    | some (n, lo, hi) => tails 1 n lo hi rest

-- Text is what characters are encoded to.
def encode (cs : List Char) : Bytes :=
  cs.flatMap String.utf8EncodeChar

def Valid (bytes : Bytes) : Prop :=
  ∃ cs, bytes = encode cs

theorem ofNat_eq {b : UInt8} (h : n = b.toNat) : UInt8.ofNat n = b := by
  rw [h, UInt8.ofNat_toNat]

-- A character of a code point.
theorem exists_char (h : v < 0xD800 ∨ 0xDFFF < v ∧ v < 0x110000) : ∃ c : Char, c.val.toNat = v := by
  have : v.isValidChar := h
  refine ⟨Char.ofNat v, ?_⟩
  rw [Char.ofNat, dif_pos this]
  rfl

-- What a first byte asks for.
theorem lead_eq_some (h : lead a = some (n, lo, hi)) :
    n = 0 ∧ a.toNat < 0x80 ∨
    n = 1 ∧ 0xC2 ≤ a.toNat ∧ a.toNat < 0xE0 ∧ lo = 0x80 ∧ hi = 0xBF ∨
    n = 2 ∧ 0xE0 ≤ a.toNat ∧ a.toNat < 0xF0 ∧ 0x80 ≤ lo ∧ hi ≤ 0xBF ∧
      (a.toNat = 0xE0 → lo = 0xA0) ∧ (a.toNat = 0xED → hi = 0x9F) ∨
    n = 3 ∧ 0xF0 ≤ a.toNat ∧ a.toNat ≤ 0xF4 ∧ 0x80 ≤ lo ∧ hi ≤ 0xBF ∧
      (a.toNat = 0xF0 → lo = 0x90) ∧ (a.toNat = 0xF4 → hi = 0x8F) := by
  simp only [lead] at h
  split_ifs at h <;> cases h <;> omega

theorem tails_succ : tails got (n + 1) lo hi rest = .ok m ↔
    ∃ b t, rest = b :: t ∧ lo ≤ b.toNat ∧ b.toNat ≤ hi ∧ tails (got + 1) n 0x80 0xBF t = .ok m := by
  cases rest
  case nil => simp [tails]
  case cons b rest =>
    rw [tails]
    constructor
    · intro h
      split at h
      case isFalse       => cases h
      case isTrue within => exact ⟨b, rest, rfl, within.left, within.right, h⟩
    · rintro ⟨_, _, ⟨⟩, ge, le, h⟩
      rwa [if_pos ⟨ge, le⟩]

-- What is read is a character's encoding.
theorem exists_of_nextChar (h : nextChar (a :: rest) = .ok n) :
    ∃ c t, a :: rest = String.utf8EncodeChar c ++ t ∧ n = (String.utf8EncodeChar c).length := by
  rw [nextChar] at h
  split at h
  case h_1             => cases h
  case h_2 m lo hi is  =>
    have lt := a.toNat_lt
    rcases lead_eq_some is with ⟨rfl, range⟩ | ⟨rfl, range⟩ | ⟨rfl, range⟩ | ⟨rfl, range⟩
    · cases h
      obtain ⟨c, val⟩ := exists_char (.inl (show a.toNat < _ by omega))
      refine ⟨c, rest, ?_, ?_⟩
      all_goals simp only [String.utf8EncodeChar, val, if_pos (show a.toNat ≤ 0x7f by omega), List.length_singleton]
      rw [ofNat_eq rfl, List.singleton_append]
    · obtain ⟨b, rest, rfl, ge, le, h⟩ := tails_succ.mp h
      cases h
      generalize v_eq : (a.toNat - 0xC0) * 64 + (b.toNat - 0x80) = v
      have low : ¬v ≤ 0x7f := by omega
      have high : v ≤ 0x7ff := by omega
      obtain ⟨c, val⟩ := exists_char (.inl (show v < 0xD800 by omega))
      refine ⟨c, rest, ?_, ?_⟩
      all_goals simp only [String.utf8EncodeChar, val, if_neg low, if_pos high, List.length_cons, List.length_nil]
      rw [ofNat_eq (show _ = a.toNat by omega), ofNat_eq (show _ = b.toNat by omega)]
      rfl
    · obtain ⟨b, rest, rfl, ge, le, h⟩ := tails_succ.mp h
      obtain ⟨c, rest, rfl, ge', le', h⟩ := tails_succ.mp h
      cases h
      generalize v_eq : (a.toNat - 0xE0) * 4096 + (b.toNat - 0x80) * 64 + (c.toNat - 0x80) = v
      have low : ¬v ≤ 0x7ff := by omega
      have low' : ¬v ≤ 0x7f := by omega
      have high : v ≤ 0xffff := by omega
      obtain ⟨ch, val⟩ := exists_char (show v < 0xD800 ∨ 0xDFFF < v ∧ v < 0x110000 by omega)
      refine ⟨ch, rest, ?_, ?_⟩
      all_goals
        simp only [String.utf8EncodeChar, val, if_neg low, if_neg low', if_pos high, List.length_cons, List.length_nil]
      rw [ofNat_eq (show _ = a.toNat by omega), ofNat_eq (show _ = b.toNat by omega),
        ofNat_eq (show _ = c.toNat by omega)]
      rfl
    · obtain ⟨b, rest, rfl, ge, le, h⟩ := tails_succ.mp h
      obtain ⟨c, rest, rfl, ge', le', h⟩ := tails_succ.mp h
      obtain ⟨d, rest, rfl, ge'', le'', h⟩ := tails_succ.mp h
      cases h
      generalize v_eq :
        (a.toNat - 0xF0) * 262144 + (b.toNat - 0x80) * 4096 + (c.toNat - 0x80) * 64 + (d.toNat - 0x80) = v
      have low : ¬v ≤ 0xffff := by omega
      have low' : ¬v ≤ 0x7ff := by omega
      have low'' : ¬v ≤ 0x7f := by omega
      obtain ⟨ch, val⟩ := exists_char (show v < 0xD800 ∨ 0xDFFF < v ∧ v < 0x110000 by omega)
      refine ⟨ch, rest, ?_, ?_⟩
      all_goals
        simp only [String.utf8EncodeChar, val, if_neg low, if_neg low', if_neg low'', List.length_cons, List.length_nil]
      rw [ofNat_eq (show _ = a.toNat by omega), ofNat_eq (show _ = b.toNat by omega),
        ofNat_eq (show _ = c.toNat by omega), ofNat_eq (show _ = d.toNat by omega)]
      rfl

theorem tails_cons (ge : lo ≤ b.toNat) (le : b.toNat ≤ hi) :
    tails got (n + 1) lo hi (b :: rest) = tails (got + 1) n 0x80 0xBF rest := by
  rw [tails, if_pos ⟨ge, le⟩]

theorem lead_two (ge : 0xC2 ≤ a.toNat) (lt : a.toNat < 0xE0) : lead a = some (1, 0x80, 0xBF) := by
  simp only [lead]
  rw [if_neg (by omega), if_neg (by omega), if_pos (by omega)]

theorem lead_three (ge : 0xE0 ≤ a.toNat) (lt : a.toNat < 0xF0) :
    lead a = some (2, if a.toNat = 0xE0 then 0xA0 else 0x80, if a.toNat = 0xED then 0x9F else 0xBF) := by
  simp only [lead]
  split_ifs <;> first | rfl | omega

theorem lead_four (ge : 0xF0 ≤ a.toNat) (le : a.toNat ≤ 0xF4) :
    lead a = some (3, if a.toNat = 0xF0 then 0x90 else 0x80, if a.toNat = 0xF4 then 0x8F else 0xBF) := by
  simp only [lead]
  split_ifs <;> first | rfl | omega

theorem nextChar_encode (c : Char) (t : Bytes) :
    nextChar (String.utf8EncodeChar c ++ t) = .ok (String.utf8EncodeChar c).length := by
  have valid : c.val.toNat < 0xD800 ∨ 0xDFFF < c.val.toNat ∧ c.val.toNat < 0x110000 := c.valid
  simp only [String.utf8EncodeChar]
  generalize c.val.toNat = v at valid
  have byte (n : Nat) (h : n < 256) : (UInt8.ofNat n).toNat = n := by
    rw [UInt8.toNat_ofNat']
    exact Nat.mod_eq_of_lt h
  split_ifs with one two three
  · have a := byte v (by omega)
    simp only [List.cons_append, nextChar, lead, a, if_pos (show v < 0x80 by omega)]
    rfl
  · have a := byte (v / 64 % 32 + 0xC0) (by omega)
    have b := byte (v % 64 + 0x80) (by omega)
    simp only [List.cons_append, nextChar, lead_two (a := UInt8.ofNat (v / 64 % 32 + 0xC0)) (by omega) (by omega)]
    rw [tails_cons (by omega) (by omega)]
    rfl
  · have a := byte (v / 4096 % 16 + 0xE0) (by omega)
    have b := byte (v / 64 % 64 + 0x80) (by omega)
    have d := byte (v % 64 + 0x80) (by omega)
    simp only [List.cons_append, nextChar, lead_three (a := UInt8.ofNat (v / 4096 % 16 + 0xE0)) (by omega) (by omega)]
    rw [tails_cons (by split_ifs <;> omega) (by split_ifs <;> omega), tails_cons (by omega) (by omega)]
    rfl
  · have a := byte (v / 262144 % 8 + 0xF0) (by omega)
    have b := byte (v / 4096 % 64 + 0x80) (by omega)
    have d := byte (v / 64 % 64 + 0x80) (by omega)
    have e := byte (v % 64 + 0x80) (by omega)
    simp only [List.cons_append, nextChar, lead_four (a := UInt8.ofNat (v / 262144 % 8 + 0xF0)) (by omega) (by omega)]
    rw [tails_cons (by split_ifs <;> omega) (by split_ifs <;> omega), tails_cons (by omega) (by omega),
      tails_cons (by omega) (by omega)]
    rfl

-- What is not a character's first byte.
theorem lead_tail (ge : 0x80 ≤ b.toNat) (le : b.toNat ≤ 0xBF) : lead b = none := by
  simp only [lead]
  rw [if_neg (by omega), if_pos (by omega)]

theorem tails_error (range : 0x80 ≤ lo ∧ hi ≤ 0xBF) (h : tails got n lo hi rest = .error e) :
    e.getD (got + rest.length) ≤ got + rest.length ∧ got ≤ e.getD (got + rest.length) ∧
      ∀ b ∈ rest.take (e.getD (got + rest.length) - got), 0x80 ≤ b.toNat ∧ b.toNat ≤ 0xBF := by
  induction n generalizing got lo hi rest
  case zero => cases h
  case succ n ih =>
    cases rest
    case nil =>
      cases h
      simp
    case cons b rest =>
      rw [tails] at h
      split at h
      case isFalse =>
        cases h
        simp
      case isTrue within =>
        have ⟨le, ge, all⟩ := ih ⟨Nat.le_refl _, Nat.le_refl _⟩ h
        have length : got + (b :: rest).length = got + 1 + rest.length := by simp; omega
        rw [length]
        generalize e.getD _ = k at *
        refine ⟨le, by omega, ?_⟩
        obtain ⟨j, rfl⟩ := Nat.exists_eq_add_of_le ge
        have : got + 1 + j - got = j + 1 := by omega
        rw [this, List.take_succ_cons]
        rw [Nat.add_sub_cancel_left] at all
        rintro x (_ | ⟨_, mem⟩)
        · omega
        · exact all x mem

-- The bytes that an error is about: none of them is a character's first one.
theorem nextChar_error (h : nextChar bytes = .error e) :
    0 < e.getD bytes.length ∧ e.getD bytes.length ≤ bytes.length ∧
      ∀ i < e.getD bytes.length, ∃ e', nextChar (bytes.drop i) = .error e' := by
  cases bytes
  case nil => cases h
  case cons a rest =>
    have first : nextChar ((a :: rest).drop 0) = .error e := h
    rw [nextChar] at h
    split at h
    case h_1 =>
      cases h
      refine ⟨Nat.one_pos, by simp, fun i lt => ⟨some 1, ?_⟩⟩
      rw [show i = 0 from Nat.lt_one_iff.mp lt, first]
    case h_2 n lo hi is =>
      have range : 0x80 ≤ lo ∧ hi ≤ 0xBF := by
        rcases lead_eq_some is with ⟨rfl, _⟩ | _ | _ | _
        · cases h
        all_goals omega
      have ⟨le, pos, all⟩ := tails_error range h
      rw [List.length_cons, Nat.add_comm]
      generalize e.getD (1 + rest.length) = k at *
      refine ⟨pos, le, fun i lt => ?_⟩
      cases i
      case zero   => exact ⟨e, first⟩
      case succ j =>
        have mem : rest[j] ∈ rest.take (k - 1) := List.mem_take_iff_getElem.mpr ⟨j, by omega, rfl⟩
        have ⟨ge, le⟩ := all _ mem
        rw [List.drop_succ_cons, List.drop_eq_getElem_cons (by omega), nextChar, lead_tail ge le]
        exact ⟨_, rfl⟩

@[simp]
theorem encode_cons : encode (c :: cs) = String.utf8EncodeChar c ++ encode cs :=
  rfl

theorem encode_ne_nil (c : Char) : String.utf8EncodeChar c ≠ [] :=
  List.ne_nil_of_length_pos (String.length_utf8EncodeChar c ▸ c.utf8Size_pos)

theorem nextChar_cons_pos (h : nextChar (a :: rest) = .ok n) : 0 < n := by
  obtain ⟨c, _, _, rfl⟩ := exists_of_nextChar h
  exact List.length_pos_of_ne_nil (encode_ne_nil c)

-- `Utf8Error`
structure Error where
  validUpTo : Nat
  errorLen  : Option Nat
  deriving DecidableEq

-- `str::from_utf8`
def fromUtf8 (bytes : Bytes) : Except Error Unit :=
  match bytes with
  | []        => .ok ()
  | a :: rest =>
    match _h : nextChar (a :: rest) with
    | .error errorLen => .error { validUpTo := 0, errorLen }
    | .ok n           =>
      (fromUtf8 ((a :: rest).drop n)).mapError fun e => { e with validUpTo := n + e.validUpTo }
  termination_by bytes.length
  decreasing_by
    have := nextChar_cons_pos _h
    simp only [List.length_drop, List.length_cons]
    omega

theorem fromUtf8_char (c : Char) (bytes : Bytes) : fromUtf8 (String.utf8EncodeChar c ++ bytes) =
    (fromUtf8 bytes).mapError fun e => { e with validUpTo := (String.utf8EncodeChar c).length + e.validUpTo } := by
  have next := nextChar_encode c bytes
  generalize eq : String.utf8EncodeChar c ++ bytes = all at next
  cases all
  case nil            => exact absurd (List.append_eq_nil_iff.mp eq).left (encode_ne_nil c)
  case cons a rest =>
    rw [fromUtf8]
    split
    case h_1 is => cases is.symm.trans next
    case h_2 is =>
      cases is.symm.trans next
      rw [← eq, List.drop_left]

-- What stands before an error is text, and the error is about what comes next.
theorem fromUtf8_error (h : fromUtf8 bytes = .error e) : ∃ cs bad, bytes = encode cs ++ bad ∧
    e.validUpTo = (encode cs).length ∧ nextChar bad = .error e.errorLen := by
  induction bytes using fromUtf8.induct generalizing e
  case case1 => rw [fromUtf8] at h; cases h
  case case2 a rest errorLen is =>
    rw [fromUtf8] at h
    split at h
    case h_2 is' => cases is.symm.trans is'
    case h_1 is' =>
      cases h
      exact ⟨[], a :: rest, rfl, rfl, is'⟩
  case case3 a rest n is ih =>
    obtain ⟨c, t, eq, rfl⟩ := exists_of_nextChar is
    rw [eq] at h ih
    rw [fromUtf8_char] at h
    rw [List.drop_left] at ih
    cases rest' : fromUtf8 t <;> rw [rest'] at h <;> cases h
    obtain ⟨cs, bad, rfl, valid, next⟩ := ih rest'
    refine ⟨c :: cs, bad, ?_, ?_, next⟩
    · rw [eq, encode_cons, List.append_assoc]
    · rw [encode_cons, List.length_append, ← valid]

theorem fromUtf8_encode_append (cs : List Char) (bytes : Bytes) : fromUtf8 (encode cs ++ bytes) =
    (fromUtf8 bytes).mapError fun e => { e with validUpTo := (encode cs).length + e.validUpTo } := by
  induction cs
  case nil =>
    cases h : fromUtf8 bytes <;> simp [encode, h, Except.mapError]
  case cons c cs ih =>
    rw [encode_cons, List.append_assoc, fromUtf8_char, ih]
    cases fromUtf8 bytes
    case ok => rfl
    case error e => simp [Except.mapError, Nat.add_assoc]

theorem fromUtf8_ok : fromUtf8 bytes = .ok () ↔ Valid bytes := by
  constructor
  · intro h
    induction bytes using fromUtf8.induct
    case case1 => exact ⟨[], rfl⟩
    case case2 a rest errorLen is =>
      rw [fromUtf8] at h
      split at h
      case h_2 is' => cases is.symm.trans is'
      case h_1     => cases h
    case case3 a rest n is ih =>
      obtain ⟨c, t, eq, rfl⟩ := exists_of_nextChar is
      rw [eq] at h ih ⊢
      rw [fromUtf8_char] at h
      rw [List.drop_left] at ih
      cases rest' : fromUtf8 t <;> rw [rest'] at h <;> cases h
      obtain ⟨cs, rfl⟩ := ih rest'
      exact ⟨c :: cs, rfl⟩
  · rintro ⟨cs, rfl⟩
    have := fromUtf8_encode_append cs []
    rwa [List.append_nil, fromUtf8] at this

theorem valid_char_append (c : Char) (bytes : Bytes) : Valid (String.utf8EncodeChar c ++ bytes) ↔ Valid bytes := by
  rw [← fromUtf8_ok, ← fromUtf8_ok, fromUtf8_char]
  cases fromUtf8 bytes <;> simp [Except.mapError]

-- Whether a character stands in front.
def InFront (c : Char) (bytes : Bytes) : Prop :=
  String.utf8EncodeChar c <+: bytes

theorem not_inFront_iff (ne : bytes ≠ []) : (∀ c, ¬InFront c bytes) ↔ ∃ e, nextChar bytes = .error e := by
  constructor
  · intro none
    cases next : nextChar bytes
    case error e => exact ⟨e, rfl⟩
    case ok n =>
      obtain ⟨a, rest, rfl⟩ := List.exists_cons_of_ne_nil ne
      obtain ⟨c, t, eq, _⟩ := exists_of_nextChar next
      exact absurd ⟨t, eq.symm⟩ (none c)
  · rintro ⟨e, next⟩ c ⟨t, rfl⟩
    cases (nextChar_encode c t).symm.trans next

-- A character is one byte of ASCII, or has none.
theorem ascii_or (c : Char) : (∃ b : UInt8, b.toNat < 0x80 ∧ String.utf8EncodeChar c = [b]) ∨
    ∀ b ∈ String.utf8EncodeChar c, 0x80 ≤ b.toNat := by
  have valid : c.val.toNat < 0xD800 ∨ 0xDFFF < c.val.toNat ∧ c.val.toNat < 0x110000 := c.valid
  simp only [String.utf8EncodeChar]
  generalize c.val.toNat = v at valid
  have byte (n : Nat) (h : n < 256) : (UInt8.ofNat n).toNat = n := by
    rw [UInt8.toNat_ofNat']
    exact Nat.mod_eq_of_lt h
  split_ifs with one two three
  · exact .inl ⟨_, by rw [byte v (by omega)]; omega, rfl⟩
  all_goals
    refine .inr ?_
    simp only [List.forall_mem_cons, List.not_mem_nil, false_implies, implies_true, and_true]
    repeat rw [byte _ (by omega)]
    omega

end Utf8
