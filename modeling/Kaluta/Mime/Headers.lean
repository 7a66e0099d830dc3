import Kaluta.Mime.Repaired

-- Which part of a message is repaired: its headers, up to the first blank line.
namespace Kaluta.Mime

open Utf8

variable {l l' r r' t t' raw : Bytes}

def isBlank (line : Bytes) : Bool :=
  [10].isPrefixOf line || [13, 10].isPrefixOf line

-- The bytes before the first blank line, LF or CRLF. A line starts at the text's start and behind each LF.
def headerEnd : Bool → Bytes → Nat
  | _, []             => 0
  | start, b :: rest  => if start && isBlank (b :: rest) then 0 else headerEnd (b = 10) rest + 1

def firstBlank (raw : Bytes) : Nat :=
  headerEnd true raw

-- What stands between the first blank line and the place where the headers are taken to end.
def between (raw : Bytes) : Bytes :=
  (raw.take (cut raw)).drop (firstBlank raw)

-- Whether a line starts behind bytes.
def lineStart (start : Bool) (l : Bytes) : Bool :=
  l.getLast?.elim start (· = 10)

theorem isBlank_iff : isBlank l = true ↔ [10] <+: l ∨ [13, 10] <+: l := by
  rw [isBlank, Bool.or_eq_true, List.isPrefixOf_iff_prefix, List.isPrefixOf_iff_prefix]

theorem SameAscii.isBlank (h : SameAscii l l') : isBlank l = isBlank l' := by
  have lf : ∀ b ∈ ([10] : Bytes), IsAscii b := by simp [IsAscii]
  have crlf : ∀ b ∈ ([13, 10] : Bytes), IsAscii b := by simp [IsAscii]
  rw [Bool.eq_iff_iff, isBlank_iff, isBlank_iff]
  exact ⟨.imp (h.isPrefix lf) (h.isPrefix crlf), .imp (h.symm.isPrefix lf) (h.symm.isPrefix crlf)⟩

theorem lineStart_cons : lineStart start (b :: l) = lineStart (b = 10) l := by
  cases h : l.getLast? <;> simp [lineStart, List.getLast?_cons, h]

theorem headerEnd_le_length : headerEnd start raw ≤ raw.length := by
  induction raw generalizing start
  case nil           => exact Nat.le_refl 0
  case cons b l ih   =>
    rw [headerEnd]
    split
    · exact Nat.zero_le _
    · exact Nat.succ_le_succ ih

theorem headerEnd_le (line : lineStart start l = true) (blank : isBlank r = true) :
    headerEnd start (l ++ r) ≤ l.length := by
  induction l generalizing start
  case nil =>
    cases r
    case nil => exact Nat.le_refl 0
    case cons b r =>
      rw [List.nil_append, headerEnd, blank, show start = true from line]
      exact Nat.le_refl 0
  case cons b l ih =>
    rw [List.cons_append, headerEnd]
    split
    · exact Nat.zero_le _
    · exact Nat.succ_le_succ (ih (lineStart_cons ▸ line))

-- The headers end with the text, or at the start of a line that is blank.
theorem headerEnd_spec (lt : headerEnd start raw < raw.length) :
    lineStart start (raw.take (headerEnd start raw)) = true ∧ isBlank (raw.drop (headerEnd start raw)) = true := by
  induction raw generalizing start
  case nil => cases lt
  case cons b l ih =>
    rw [headerEnd] at lt ⊢
    split at lt
    case isTrue h =>
      rw [if_pos h]
      exact Bool.and_eq_true_iff.mp h
    case isFalse h =>
      rw [if_neg h, List.take_succ_cons, List.drop_succ_cons, lineStart_cons]
      exact ih (Nat.lt_of_succ_lt_succ lt)

theorem headerEnd_other (other : ∀ b ∈ u, ¬IsAscii b) (ne : u ≠ []) :
    headerEnd start (u ++ l) = u.length + headerEnd false l := by
  induction u generalizing start
  case nil => exact absurd rfl ne
  case cons b u ih =>
    have notAscii := other b List.mem_cons_self
    have notBlank : isBlank (b :: (u ++ l)) = false := by
      refine Bool.eq_false_iff.mpr fun blank => notAscii ?_
      rcases isBlank_iff.mp blank with pre | pre
      all_goals
        obtain ⟨rfl, _⟩ := List.cons_prefix_cons.mp pre
        decide
    have notLf : b ≠ 10 := fun is => notAscii (is ▸ by decide)
    rw [List.cons_append, headerEnd, notBlank, Bool.and_false, if_neg Bool.false_ne_true, decide_eq_false notLf]
    cases u
    case nil => exact Nat.add_comm _ 1
    case cons c u =>
      rw [ih (fun b mem => other b (List.mem_cons_of_mem _ mem)) (List.cons_ne_nil c u), List.length_cons (a := b)]
      omega

-- Headers are as long as what the same ASCII makes of them.
theorem SameAscii.headerEnd (h : SameAscii l l') (rest : SameAscii t t') (is : headerEnd start (l ++ t) = l.length) :
    headerEnd start (l' ++ t') = l'.length := by
  induction h generalizing start
  case nil =>
    have blank := rest.isBlank
    cases rest
    case nil => rfl
    case ascii b l l' a same =>
      rw [List.nil_append, Mime.headerEnd] at is ⊢
      rw [← blank]
      split at is
      case isTrue h => rw [if_pos h]; rfl
      case isFalse  => cases is
    case other ne _ other _ _ =>
      rw [List.nil_append, headerEnd_other other ne] at is
      have := List.length_pos_of_ne_nil ne
      rw [List.length_nil] at is
      omega
  case ascii b l l' a same ih =>
    have blank := ((same.append rest).ascii a).isBlank
    rw [List.cons_append, Mime.headerEnd] at is ⊢
    rw [← blank]
    split at is
    case isTrue     => cases is
    case isFalse h => rw [if_neg h, ih (Nat.succ_inj.mp is), List.length_cons]
  case other ne ne' other other' _ ih =>
    rw [List.append_assoc, headerEnd_other other ne, List.length_append] at is
    rw [List.append_assoc, headerEnd_other other' ne', List.length_append, ih (Nat.add_left_cancel is)]

theorem cut_eq_crlf (h : position CRLF2 raw = some c) : cut raw = c := by
  rw [cut, h]
  rfl

theorem cut_eq_lf (h : position CRLF2 raw = none) (h' : position LF2 raw = some c) : cut raw = c := by
  rw [cut, h, h']
  rfl

theorem cut_eq_length (h : position CRLF2 raw = none) (h' : position LF2 raw = none) : cut raw = raw.length := by
  rw [cut, h, h']
  rfl

-- What the text from the cut on is: nothing, or the headers' last line ending and a blank line.
theorem cut_cases (raw : Bytes) :
    cut raw = raw.length ∨
      ∃ eol rest, (eol = [10] ∨ eol = [13, 10]) ∧ raw.drop (cut raw) = eol ++ rest ∧ isBlank rest = true := by
  cases h : position CRLF2 raw
  case some c =>
    have ⟨⟨rest, eq⟩, _⟩ := position_eq_some h
    rw [cut_eq_crlf h]
    exact .inr ⟨[13, 10], [13, 10] ++ rest, .inr rfl, eq.symm, rfl⟩
  case none =>
    cases h' : position LF2 raw
    case some c =>
      have ⟨⟨rest, eq⟩, _⟩ := position_eq_some h'
      rw [cut_eq_lf h h']
      exact .inr ⟨[10], [10] ++ rest, .inl rfl, eq.symm, rfl⟩
    case none => exact .inl (cut_eq_length h h')

theorem lineStart_concat : lineStart start (l ++ [b]) = decide (b = 10) := by
  rw [lineStart, List.getLast?_concat]
  rfl

-- The cut is not before the first blank line, but for a line ending.
theorem firstBlank_cases (raw : Bytes) : firstBlank raw ≤ cut raw ∨
    ∃ eol, (eol = [10] ∨ eol = [13, 10]) ∧ raw.take (firstBlank raw) = raw.take (cut raw) ++ eol ∧
      raw.drop (cut raw) = eol ++ raw.drop (firstBlank raw) := by
  rcases cut_cases raw with eq | ⟨eol, rest, isEol, eq, blank⟩
  · exact .inl (eq ▸ headerEnd_le_length)
  · refine or_iff_not_imp_left.mpr fun before => ⟨eol, isEol, ?_⟩
    have text : raw = raw.take (cut raw) ++ eol ++ rest := by rw [List.append_assoc, ← eq, List.take_append_drop]
    have length : (raw.take (cut raw)).length = cut raw := by
      have := congrArg List.length eq
      rcases isEol with rfl | rfl
      all_goals
        rw [List.length_drop] at this
        simp only [List.length_append, List.length_cons, List.length_take] at this ⊢
        omega
    have line : lineStart true (raw.take (cut raw) ++ eol) = true := by
      rcases isEol with rfl | rfl
      · rw [lineStart_concat]; rfl
      · rw [← List.singleton_append, ← List.append_assoc, lineStart_concat]; rfl
    have le : firstBlank raw ≤ (raw.take (cut raw) ++ eol).length := by
      have := headerEnd_le line blank
      rwa [← text] at this
    have is : firstBlank raw = (raw.take (cut raw) ++ eol).length := by
      refine Nat.le_antisymm le (Nat.not_lt.mp fun lt => ?_)
      rw [List.length_append, length] at lt
      rcases isEol with rfl | rfl
      · exact before (Nat.le_of_lt_succ lt)
      · -- It is not between CR and LF.
        have is : firstBlank raw = cut raw + 1 := by
          rw [List.length_cons, List.length_singleton] at lt
          omega
        have ne : rest ≠ [] := by
          rintro rfl
          cases blank
        have := List.length_pos_of_ne_nil ne
        have lengths := congrArg List.length text
        simp only [List.length_append, length, List.length_cons, List.length_nil] at lengths
        have ⟨start, _⟩ := headerEnd_spec (show firstBlank raw < raw.length by omega)
        rw [show headerEnd true raw = _ from is, List.take_succ_eq_append_getElem (by omega), lineStart_concat,
          decide_eq_true_iff] at start
        have head := congrArg List.head? eq
        rw [List.head?_drop, List.getElem?_eq_getElem (by omega), start] at head
        cases head
    rw [is]
    refine ⟨?_, ?_⟩
    · exact (congrArg (List.take _) text).trans List.take_left
    · exact eq.trans (congrArg (eol ++ ·) ((congrArg (List.drop _) text).trans List.drop_left).symm)

theorem repair_eq : repair8bitHeaders raw = lossy latin1 (raw.take (cut raw)) ++ raw.drop (cut raw) := by
  simp only [repair8bitHeaders, List.splitAt_eq]
  cases h : fromUtf8 (raw.take (cut raw))
  case ok    => rw [lossy_ok h, List.take_append_drop]
  case error => rfl

theorem repair_of_valid (h : Valid (raw.take (cut raw))) : repair8bitHeaders raw = raw := by
  rw [repair_eq, lossy_ok (fromUtf8_ok.mpr h), List.take_append_drop]

theorem crlf2_ascii : ∀ b ∈ CRLF2, IsAscii b := by
  simp [CRLF2, IsAscii]

theorem lf2_ascii : ∀ b ∈ LF2, IsAscii b := by
  simp [LF2, IsAscii]

-- What is repaired has its cut within the repaired bytes.
theorem cut_repair (raw : Bytes) : cut (repair8bitHeaders raw) ≤ (lossy latin1 (raw.take (cut raw))).length := by
  have same : SameAscii raw (repair8bitHeaders raw) := by
    have := (repaired_lossy (raw.take (cut raw))).sameAscii.append (.refl (raw.drop (cut raw)))
    rwa [List.take_append_drop, ← repair_eq] at this
  have absent {pat : Bytes} (ascii : ∀ b ∈ pat, IsAscii b) (ne : pat ≠ []) (h : position pat raw = none) :
      position pat (repair8bitHeaders raw) = none := by
    rw [position_eq_none ne] at h ⊢
    exact fun inf => h (same.symm.isInfix ascii ne inf)
  have found {pat : Bytes} (ne : pat ≠ []) (h : position pat raw = some (cut raw)) :
      ∃ m ≤ (lossy latin1 (raw.take (cut raw))).length, position pat (repair8bitHeaders raw) = some m := by
    have ⟨pre, lt⟩ := position_eq_some h
    refine position_le ?_ ?_
    · rwa [repair_eq, List.drop_left]
    · rw [repair_eq, List.length_append, List.length_drop]
      omega
  cases h : position CRLF2 raw
  case some c =>
    obtain ⟨m, le, is⟩ := found (by simp [CRLF2]) (h.trans (congrArg some (cut_eq_crlf h).symm))
    rwa [cut_eq_crlf is]
  case none =>
    have none := absent crlf2_ascii (by simp [CRLF2]) h
    cases h' : position LF2 raw
    case some c =>
      obtain ⟨m, le, is⟩ := found (by simp [LF2]) (h'.trans (congrArg some (cut_eq_lf h h').symm))
      rwa [cut_eq_lf none is]
    case none =>
      rw [cut_eq_length none (absent lf2_ascii (by simp [LF2]) h'), repair_eq, cut_eq_length h h']
      simp

theorem repair_idempotent : repair8bitHeaders (repair8bitHeaders raw) = repair8bitHeaders raw := by
  refine repair_of_valid ?_
  have le := cut_repair raw
  have valid := (repaired_lossy (raw.take (cut raw))).valid
  have head : AsciiHead ((repair8bitHeaders raw).drop (cut (repair8bitHeaders raw))) := by
    rcases cut_cases (repair8bitHeaders raw) with eq | ⟨eol, rest, isEol, eq, _⟩
    · rw [eq, List.drop_length]
      nofun
    · rw [eq]
      rcases isEol with rfl | rfl <;> rintro b ⟨⟩ <;> decide
  generalize cut (repair8bitHeaders raw) = m at *
  rw [repair_eq] at head ⊢
  rw [List.take_append_of_le_length le]
  refine valid_of_append (r := (lossy latin1 (raw.take (cut raw))).drop m) (by rwa [List.take_append_drop]) ?_
  rw [List.drop_append_of_le_length le] at head
  intro b mem
  refine head b ?_
  rw [List.head?_append, Option.mem_def.mp mem]
  rfl

-- The headers come out as valid text, with the valid text that was in them as it was, and for good. The rest comes out
-- as it was just where nothing invalid stands between the first blank line and the cut.
theorem repair_frame_iff (raw : Bytes) :
    let out := repair8bitHeaders raw
    Repaired (raw.take (firstBlank raw)) (out.take (firstBlank out)) ∧ Valid (out.take (firstBlank out)) ∧
      repair8bitHeaders out = out ∧
      (out.drop (firstBlank out) = raw.drop (firstBlank raw) ↔ Valid (between raw)) := by
  have repaired := repaired_lossy (raw.take (cut raw))
  suffices ∃ h body, repair8bitHeaders raw = h ++ body ∧ firstBlank (h ++ body) = h.length ∧
      Repaired (raw.take (firstBlank raw)) h ∧ (body = raw.drop (firstBlank raw) ↔ Valid (between raw)) by
    obtain ⟨h, body, out, length, headers, frame⟩ := this
    refine ⟨?_, ?_, repair_idempotent, ?_⟩
    · rwa [out, length, List.take_left]
    · rw [out, length, List.take_left]
      exact headers.valid
    · rwa [out, length, List.drop_left]
  have length : (raw.take (firstBlank raw)).length = firstBlank raw := by
    rw [List.length_take]
    exact Nat.min_eq_left headerEnd_le_length
  rcases firstBlank_cases raw with le | ⟨eol, isEol, head, eq⟩
  · have head : raw.take (cut raw) = raw.take (firstBlank raw) ++ between raw := by
      rw [between, ← Nat.min_eq_left le, ← List.take_take, Nat.min_eq_left le, List.take_append_drop]
    have rest : raw.drop (firstBlank raw) = between raw ++ raw.drop (cut raw) := by
      have : raw = raw.take (firstBlank raw) ++ (between raw ++ raw.drop (cut raw)) := by
        rw [← List.append_assoc, ← head, List.take_append_drop]
      exact (congrArg (List.drop _) this).trans (List.drop_left' length)
    have ascii : AsciiHead (between raw) := by
      intro b mem
      have first : (raw.drop (firstBlank raw)).head? = some b := by
        rw [rest, List.head?_append, Option.mem_def.mp mem]
        rfl
      have lt : firstBlank raw < raw.length := by
        refine Nat.lt_of_le_of_ne headerEnd_le_length fun eq => ?_
        rw [eq, List.drop_length] at first
        cases first
      have ⟨_, blank⟩ := headerEnd_spec lt
      rcases isBlank_iff.mp blank with ⟨_, pre⟩ | ⟨_, pre⟩
      all_goals
        cases first.symm.trans (congrArg List.head? pre.symm)
        decide
    rw [head] at repaired
    obtain ⟨h, m, out, headers, middle⟩ := repaired.split ascii
    refine ⟨h, m ++ raw.drop (cut raw), ?_, ?_, headers, ?_⟩
    · rw [repair_eq, head, out, List.append_assoc]
    · have same := middle.sameAscii.append (.refl (raw.drop (cut raw)))
      refine headers.sameAscii.headerEnd same ?_
      rw [← rest, List.take_append_drop, length]
      rfl
    · rw [rest, List.append_cancel_right_eq]
      exact ⟨fun eq => eq ▸ middle.valid, middle.eq_of_valid⟩
  · have empty : between raw = [] := by
      refine List.drop_eq_nil_of_le ?_
      have := congrArg List.length head
      rw [length, List.length_append] at this
      omega
    have ascii : AsciiHead eol := by
      rcases isEol with rfl | rfl <;> rintro b ⟨⟩ <;> decide
    have valid : Repaired eol eol := by
      rcases isEol with rfl | rfl
      · exact .chars ['\n'] .nil
      · exact .chars ['\r', '\n'] .nil
    have headers := repaired.append ascii valid
    rw [← head] at headers
    refine ⟨lossy latin1 (raw.take (cut raw)) ++ eol, raw.drop (firstBlank raw), ?_, ?_, headers, ?_⟩
    · rw [repair_eq, eq, List.append_assoc]
    · refine headers.sameAscii.headerEnd (.refl (raw.drop (firstBlank raw))) ?_
      rw [List.take_append_drop, length]
      rfl
    · rw [empty]
      exact iff_of_true rfl ⟨[], rfl⟩

theorem body_repaired :
    let raw := [97, 10, 10, 255, 13, 10, 13, 10]
    let out := repair8bitHeaders raw
    raw.drop (firstBlank raw) = [10, 255, 13, 10, 13, 10] ∧
      out.drop (firstBlank out) = [10, 195, 191, 13, 10, 13, 10] := by
  decide +kernel

end Kaluta.Mime
