import Kaluta.Mbox.Reader
import Mathlib.Data.List.Infix

-- What the reader gives back of the messages that were written.
namespace Kaluta.Mbox

variable {line rest m : Bytes} {ms : List Bytes}

-- The writer ends a message that does not end with a line feed.
def ended (m : Bytes) : Bytes :=
  if m = [] ∨ m.getLast? = some LF then m else m ++ [LF]

-- A message that is more than white space.
def hasContent (m : Bytes) : Bool :=
  !m.all MboxReader.isAsciiWhitespace

def escaped (line : Bytes) : Bytes :=
  if quotesFrom line then GT :: line else line

def entry (m : Bytes) : Bytes :=
  SEPARATOR ++ ((Lines.splitInclusive LF (ended m)).map escaped).flatten ++ [LF]

section Escaping

theorem quotesFrom_quote : quotesFrom (GT :: line) = quotesFrom line := by
  simp [quotesFrom]

theorem unescapeFrom_escaped (out : Bytes) : unescapeFrom (escaped line) out = out ++ line := by
  unfold escaped unescapeFrom
  split
  case isTrue quoted =>
    rw [quotesFrom_quote, if_pos ⟨by simp, quoted⟩, List.drop_one, List.tail_cons]
  case isFalse plain => rw [if_neg fun both => plain both.2]

-- No line that is written is taken for a separator.
theorem not_isSeparator_escaped : isSeparator (escaped line) = false := by
  unfold escaped
  split
  case isTrue => simp [isSeparator, FROM, GT]
  case isFalse plain =>
    unfold isSeparator
    by_contra separator
    have separator : FROM.isPrefixOf line = true := by
      simp only [Bool.not_eq_false, Bool.and_eq_true] at separator
      exact separator.1.1
    obtain ⟨rest, rfl⟩ := List.isPrefixOf_iff_prefix.mp separator
    exact plain (by simp [quotesFrom, FROM, GT])

theorem terminated_escaped (h : Lines.Terminated LF line) : Lines.Terminated LF (escaped line) := by
  obtain ⟨init, rfl, free⟩ := h
  unfold escaped
  split
  case isTrue  => exact ⟨GT :: init, rfl, by rw [List.mem_cons, not_or]; exact ⟨by decide, free⟩⟩
  case isFalse => exact ⟨init, rfl, free⟩

theorem quotesFrom_concat : quotesFrom (line ++ [LF]) = quotesFrom line := by
  induction line
  case nil => decide
  case cons b line ih =>
    by_cases quote : b = GT
    case pos => rw [quote, List.cons_append, quotesFrom_quote, quotesFrom_quote, ih]
    case neg =>
      have plain : ∀ line, quotesFrom (b :: line) = FROM.isPrefixOf (b :: line) := fun line => by simp [quotesFrom, quote]
      rw [List.cons_append, plain, plain, Bool.eq_iff_iff, List.isPrefixOf_iff_prefix, List.isPrefixOf_iff_prefix,
        ← List.cons_append, List.prefix_concat_iff]
      refine or_iff_right fun same => ?_
      have := congrArg List.getLast? same
      rw [List.getLast?_concat] at this
      exact absurd this (by decide)

theorem escaped_concat : escaped line ++ [LF] = escaped (line ++ [LF]) := by
  unfold escaped
  rw [quotesFrom_concat]
  split <;> rfl

theorem ended_ends (m : Bytes) : ended m = [] ∨ (ended m).getLast? = some LF := by
  unfold ended
  split
  case isTrue h => exact h
  case isFalse  => exact .inr List.getLast?_concat

theorem terminated_entry : ∀ l ∈ (Lines.splitInclusive LF (ended m)).map escaped, Lines.Terminated LF l := by
  intro l mem
  obtain ⟨l, mem', rfl⟩ := List.mem_map.mp mem
  exact terminated_escaped (Lines.terminated_of_mem (ended_ends m) l mem')

end Escaping

section Writing

theorem foldl_escapeFrom (ls : List Bytes) (out : Bytes) :
    ls.foldl (fun out line => escapeFrom line out) out = out ++ (ls.map escaped).flatten := by
  induction ls generalizing out
  case nil          => simp
  case cons l ls ih =>
    rw [List.foldl_cons, ih, List.map_cons, List.flatten_cons, ← List.append_assoc]
    congr 1
    unfold escapeFrom escaped
    split <;> simp

theorem buildOne_eq (out m : Bytes) : buildOne out m = out ++ entry m := by
  unfold buildOne
  rw [foldl_escapeFrom]
  dsimp only
  by_cases ends : m = [] ∨ m.getLast? = some LF
  case pos =>
    have same : ended m = m := if_pos ends
    have terminated := terminated_entry (m := m)
    rw [same] at terminated
    have feed : [LF] <:+ out ++ SEPARATOR ++ ((Lines.splitInclusive LF m).map escaped).flatten := by
      cases lines : (Lines.splitInclusive LF m).map escaped
      case nil =>
        rw [List.flatten_nil, List.append_nil]
        exact (by decide : [LF] <:+ SEPARATOR).trans (List.suffix_append _ _)
      case cons =>
        rw [← lines]
        exact (Lines.suffix_flatten terminated (by simp [lines])).trans (List.suffix_append _ _)
    rw [if_pos (List.isSuffixOf_iff_suffix.mpr feed), entry, same]
    simp
  case neg =>
    have same : ended m = m ++ [LF] := if_neg ends
    rw [not_or] at ends
    obtain ⟨ls, l, full, cut, cut'⟩ := Lines.splitInclusive_concat ends.2 ends.1
    have last : l.getLast? ≠ some LF := by
      have := Lines.flatten_splitInclusive (d := LF) m
      rw [cut, List.flatten_append, List.flatten_singleton] at this
      rw [← List.getLast?_append_of_ne_nil _ full, this]
      exact ends.2
    have open_ : ¬[LF] <:+ out ++ SEPARATOR ++ ((ls ++ [l]).map escaped).flatten := by
      rintro ⟨init, eq⟩
      have := congrArg List.getLast? eq
      have full' : escaped l ≠ [] := by unfold escaped; split <;> simp [full]
      rw [List.map_append, List.map_singleton, List.flatten_append, List.flatten_singleton, ← List.append_assoc,
        List.getLast?_append_of_ne_nil _ full', List.getLast?_concat] at this
      unfold escaped at this
      split at this
      case isTrue  => exact last ((List.getLast?_cons_of_ne_nil full).symm.trans this.symm)
      case isFalse => exact last this.symm
    rw [cut, if_neg (by rw [List.isSuffixOf_iff_suffix]; exact open_), entry, same, cut']
    simp [← escaped_concat]

theorem build_eq (ms : List Bytes) : build ms = ms.flatMap entry := by
  unfold build
  suffices ∀ out, ms.foldl buildOne out = out ++ ms.flatMap entry by simpa using this []
  induction ms
  case nil          => simp
  case cons m ms ih => intro out; rw [List.foldl_cons, ih, buildOne_eq, List.flatMap_cons, List.append_assoc]

-- The lines of what is written.
theorem split_entry (rest : Bytes) : Lines.splitInclusive LF (entry m ++ rest) =
    SEPARATOR :: (Lines.splitInclusive LF (ended m)).map escaped ++ [LF] :: Lines.splitInclusive LF rest := by
  have separator : Lines.Terminated LF SEPARATOR := ⟨SEPARATOR.dropLast, by decide, by decide⟩
  have blank : Lines.Terminated LF [LF] := ⟨[], rfl, List.not_mem_nil⟩
  unfold entry
  rw [List.append_assoc, List.append_assoc, Lines.splitInclusive_cons separator, Lines.splitInclusive_flatten terminated_entry,
    Lines.splitInclusive_cons blank, List.cons_append]

end Writing

section Reading

open MboxReader

-- The body lines of a message, none of which splits it.
theorem readBody_escaped (ls : List Bytes) (input : List Bytes) (position : Nat) (raw : Bytes) (previousBlank : Bool) :
    ∃ blank, readBody (ls.map escaped ++ input) position raw previousBlank =
      readBody input (position + (ls.map escaped).flatten.length) (raw ++ ls.flatten) blank := by
  induction ls generalizing position raw previousBlank
  case nil => exact ⟨previousBlank, by simp⟩
  case cons l ls ih =>
    obtain ⟨blank, eq⟩ := ih (position + (escaped l).length) (raw ++ l) (isBlank (escaped l))
    refine ⟨blank, ?_⟩
    rw [List.map_cons, List.cons_append, readBody, not_isSeparator_escaped, if_neg (by simp), unescapeFrom_escaped, eq]
    simp [Nat.add_assoc]

-- What is read of a message.
def body (m : Bytes) : Bytes :=
  if m = [] then [LF] else ended m

theorem trim_ended : trimOneTrailingBlankLine (ended m ++ [LF]) = body m := by
  unfold body
  split
  case isTrue empty => rw [empty]; decide
  case isFalse full =>
    have ends : (ended m).getLast? = some LF := by
      refine (ended_ends m).resolve_left fun empty => full ?_
      unfold ended at empty
      split at empty
      case isTrue  => exact empty
      case isFalse => simp at empty
    obtain ⟨init, eq⟩ := List.getLast?_eq_some_iff.mp ends
    have carriage : ¬[CR, LF, CR, LF] <:+ ended m ++ [LF] := by
      rw [eq]
      intro suffix
      obtain ⟨before, same⟩ := suffix
      have : before ++ [CR, LF, CR] = init ++ [LF] := by
        apply List.append_cancel_right
        simpa using same
      have := congrArg List.getLast? this
      simp [CR, LF] at this
    have feeds : [LF, LF] <:+ ended m ++ [LF] := ⟨init, by rw [eq]; simp⟩
    unfold trimOneTrailingBlankLine
    rw [if_neg (by rwa [List.isSuffixOf_iff_suffix]), if_pos (List.isSuffixOf_iff_suffix.mpr feeds)]
    simp

-- The reader that has read a message: at the next separator, or done.
def after (position : Nat) (ms : List Bytes) : MboxReader :=
  match ms with
  | []      => { input := [], position, started := true, done := true }
  | m :: ms =>
    { input            := (Lines.splitInclusive LF (entry m ++ ms.flatMap entry)).tail
      position         := position + SEPARATOR.length
      pendingSeparator := some position
      started          := true }

theorem message_entry (offset : Nat) (ms : List Bytes) :
    message offset (Lines.splitInclusive LF (entry m ++ ms.flatMap entry)).tail (offset + SEPARATOR.length) [] =
      (after (offset + (entry m).length) ms, some { offset, raw := body m }) := by
  obtain ⟨blank, eq⟩ := readBody_escaped (Lines.splitInclusive LF (ended m))
    ([LF] :: Lines.splitInclusive LF (ms.flatMap entry)) (offset + SEPARATOR.length) [] true
  have split_ : (Lines.splitInclusive LF (entry m ++ ms.flatMap entry)).tail =
      (Lines.splitInclusive LF (ended m)).map escaped ++ [LF] :: Lines.splitInclusive LF (ms.flatMap entry) := by
    rw [split_entry, List.cons_append, List.tail_cons]
  have feed : ∀ out, unescapeFrom [LF] out = out ++ [LF] := fun out => rfl
  have position : offset + SEPARATOR.length + ((Lines.splitInclusive LF (ended m)).map escaped).flatten.length +
      [LF].length = offset + (entry m).length := by
    simp only [entry, List.length_append]
    omega
  unfold message
  rw [split_, List.isEmpty_nil, Bool.true_or, eq, readBody, if_neg (by simp [isSeparator, FROM, LF]), position, feed,
    List.nil_append, Lines.flatten_splitInclusive]
  cases ms
  case nil => simp only [List.flatMap_nil, Lines.splitInclusive, readBody, trim_ended, after]
  case cons m' ms =>
    have separator : isSeparator SEPARATOR = true := by decide
    have next := split_entry (m := m') (ms.flatMap entry)
    rw [List.flatMap_cons, next, List.cons_append, readBody,
      if_pos ⟨by decide, separator⟩, trim_ended]
    simp only [after, next, List.cons_append, List.tail_cons]

-- The messages that reading finds, at their offsets.
def found (position : Nat) : List Bytes → List MboxMessage
  | []      => []
  | m :: ms =>
    if hasContent m then { offset := position, raw := ended m } :: found (position + (entry m).length) ms
    else found (position + (entry m).length) ms

theorem all_body : (body m).all isAsciiWhitespace = !hasContent m := by
  unfold body ended hasContent
  split_ifs with empty
  · rw [empty]; decide
  · simp
  · simp [isAsciiWhitespace, LF]

theorem collect_of_none {r : MboxReader} (h : r.nextMessage.2 = none) : r.collect = [] := by
  rw [collect]
  split
  case _ => rfl
  case _ eq => rw [eq] at h; cases h

theorem collect_of_some {r next : MboxReader} {m : MboxMessage} (h : r.nextMessage = (next, some m)) :
    r.collect = if m.raw.all isAsciiWhitespace then next.collect else m :: next.collect := by
  rw [collect]
  split
  case _ eq => rw [eq] at h; cases h
  case _ eq => rw [eq] at h; cases h; rfl

theorem collect_after (position : Nat) (ms : List Bytes) : (after position ms).collect = found position ms := by
  induction ms generalizing position
  case nil => exact collect_of_none rfl
  case cons m ms ih =>
    have next : (after position (m :: ms)).nextMessage =
        (after (position + (entry m).length) ms, some { offset := position, raw := body m }) :=
      message_entry position ms
    rw [collect_of_some next, all_body, ih, found]
    by_cases content : hasContent m
    case pos =>
      have full : m ≠ [] := by rintro rfl; cases content
      rw [content, if_neg (by simp), if_pos rfl, body, if_neg full]
    case neg => rw [if_pos (by simp [content]), if_neg content]

theorem readAll_build (ms : List Bytes) : readAll (build ms) = found 0 ms := by
  rw [readAll, build_eq]
  cases ms
  case nil => exact collect_of_none rfl
  case cons m ms =>
    have separator : isSeparator SEPARATOR = true := by decide
    have first : (MboxReader.new ((m :: ms).flatMap entry)).nextMessage =
        (after (entry m).length ms, some { offset := 0, raw := body m }) := by
      have := message_entry (m := m) 0 ms
      rw [split_entry, List.cons_append, List.tail_cons, Nat.zero_add, Nat.zero_add] at this
      unfold MboxReader.nextMessage MboxReader.new
      rw [List.flatMap_cons, split_entry, List.cons_append]
      simp only [Bool.false_eq_true, if_false, findFirst, separator, if_true, Nat.zero_add, this]
    have next : (after 0 (m :: ms)).nextMessage = _ := message_entry 0 ms
    rw [← collect_after, collect_of_some first, collect_of_some next, Nat.zero_add]

theorem raw_found (position : Nat) (ms : List Bytes) :
    (found position ms).map MboxMessage.raw = (ms.filter hasContent).map ended := by
  induction ms generalizing position
  case nil          => rfl
  case cons m ms ih =>
    unfold found
    by_cases content : hasContent m
    case pos => simp [content, ih]
    case neg => simp [content, ih]

-- The offset of a message that is found is where the writing of it, and of those after it, begins.
theorem offset_found {position i : Nat} {m : MboxMessage} (h : (found position ms)[i]? = some m) :
    ∃ k, m.offset = position + ((ms.take k).flatMap entry).length ∧
      ((ms.drop k).filter hasContent).map ended = ((ms.filter hasContent).map ended).drop i := by
  induction ms generalizing position i
  case nil          => cases h
  case cons m' ms ih =>
    unfold found at h
    split at h
    case isTrue content =>
      cases i
      case zero   => cases h; exact ⟨0, rfl, rfl⟩
      case succ i =>
        obtain ⟨k, offset, rest⟩ := ih h
        exact ⟨k + 1, by simp [offset, Nat.add_assoc], by simpa [content] using rest⟩
    case isFalse content =>
      obtain ⟨k, offset, rest⟩ := ih h
      exact ⟨k + 1, by simp [offset, Nat.add_assoc], by simpa [content] using rest⟩

theorem drop_build (ms : List Bytes) (k : Nat) :
    (build ms).drop ((ms.take k).flatMap entry).length = build (ms.drop k) := by
  rw [build_eq, build_eq]
  conv_lhs => arg 2; rw [← List.take_append_drop k ms, List.flatMap_append]
  exact List.drop_left

end Reading

-- Reading what was written gives every message that is more than white space, in order, with a line feed at its end
-- if it had none; and from the offset of one of them on, that one and those after it.
theorem readAll_build_raw (ms : List Bytes) :
    (readAll (build ms)).map MboxMessage.raw = (ms.filter hasContent).map ended ∧
    ∀ i : Fin (readAll (build ms)).length,
      (readAll ((build ms).drop (readAll (build ms))[i].offset)).map MboxMessage.raw =
        ((ms.filter hasContent).map ended).drop i := by
  constructor
  case left  => rw [readAll_build, raw_found]
  case right =>
    intro i
    have at_ : (found 0 ms)[i.val]? = some (readAll (build ms))[i] := by
      rw [← readAll_build]
      exact List.getElem?_eq_getElem i.isLt
    obtain ⟨k, offset, rest⟩ := offset_found at_
    rw [offset, Nat.zero_add, drop_build, readAll_build, raw_found, rest]

-- An empty message, and one without a line feed at its end.
theorem messages_differ : ¬∀ ms, (readAll (build ms)).map MboxMessage.raw = ms := by
  intro claim
  have := claim [[], [97]]
  rw [readAll_build, raw_found] at this
  exact absurd this (by decide)

end Kaluta.Mbox
