import Kaluta.Matching.Records

-- What the matches of a pass are, whatever was sent.
namespace Kaluta.Matching

open Facts (Letters)

section Distance

variable {b : List String} {previous : List Nat} {i j k left v : Nat}

-- Row `i` from column `j` on: no entry is above its longer side.
def Bounded (i j : Nat) (entries : List Nat) : Prop :=
  ∀ k v, entries[k]? = some v → v ≤ max i (j + k)

theorem Bounded.tail (h : Bounded i j (v :: previous)) : Bounded i (j + 1) previous :=
  fun k v is => (h (k + 1) v is).trans (by omega)

theorem Bounded.nextRow (h : Bounded i j previous) (wa : String) (b : List String) (left : Nat) :
    Bounded (i + 1) (j + 1) (nextRow wa b left previous) := by
  induction b generalizing j previous left
  case nil          => exact fun k v is => by simp [Matching.nextRow] at is
  case cons wb b ih =>
    match previous with
    | [] | [_] => exact fun k v is => by simp [Matching.nextRow] at is
    | diagonal :: above :: previous =>
      rw [Matching.nextRow]
      intro k v is
      cases k
      case zero =>
        have first : diagonal ≤ max i j := h 0 diagonal rfl
        have : v ≤ diagonal + 1 := by
          cases is
          split <;> omega
        omega
      case succ k => exact (ih h.tail _ k v is).trans (by omega)

theorem bounded_row (h : Bounded i 0 previous) (wa : String) : Bounded (i + 1) 0 (row b previous (wa, i)) := by
  intro k v is
  cases k
  case zero   => cases is; exact le_max_left _ _
  case succ k => exact (h.nextRow wa b (i + 1) k v is).trans (by omega)

theorem bounded_rows (h : Bounded i 0 previous) (a : List String) :
    Bounded (i + a.length) 0 ((a.zipIdx i).foldl (row b) previous) := by
  induction a generalizing i previous
  case nil          => exact h
  case cons wa a ih =>
    rw [List.length_cons, ← Nat.add_assoc, Nat.add_right_comm]
    exact ih (bounded_row h wa)

theorem edits_le (a b : List String) : edits a b ≤ max a.length b.length := by
  have first : Bounded 0 0 (List.range (b.length + 1)) := fun k v is => by
    have := List.getElem?_eq_some_iff.mp is
    simp at this
    omega
  have last := @bounded_rows b _ _ first a
  rw [edits]
  cases is : (a.zipIdx.foldl (row b) (List.range (b.length + 1)))[b.length]?
  case none   => exact Nat.zero_le _
  case some v => exact (last b.length v is).trans (by omega)

-- From 0 for the same words to 1.
theorem distance_le_one [Letters] (a b : String) : 0 ≤ distance a b ∧ distance a b ≤ 1 := by
  rw [distance]
  split
  case isTrue  => decide
  case isFalse ne =>
    have pos : (0 : Rat) < ((max (words a).length (words b).length : Nat) : Rat) :=
      Nat.cast_pos.mpr (Nat.pos_of_ne_zero ne)
    refine ⟨div_nonneg (Nat.cast_nonneg _) pos.le, (div_le_one pos).mpr ?_⟩
    exact Nat.cast_le.mpr (edits_le _ _)

end Distance

section Matched

variable [Letters] {sent : List SentCandidate} {now : Millis} {text : MessageId → Option String}
variable {s : Found} {r : Composition} {before : List MessageId}

def Outcome.message : Outcome → Option MessageId
  | .matched messageId .. => some messageId
  | .unmatched            => none

-- The messages that outcomes have.
def messages (out : List (Int × Outcome)) : List MessageId :=
  out.filterMap (·.2.message)

-- Each message is there once, and none that was used before.
structure Found.Sound (before : List MessageId) (s : Found) : Prop where
  used  : ∀ m, m ∈ s.used ↔ m ∈ before ∨ m ∈ messages s.out
  nodup : (messages s.out).Nodup
  fresh : ∀ m ∈ messages s.out, m ∉ before

theorem Found.Sound.matched (h : s.Sound before) (c : SentCandidate) (new : c.messageId ∉ s.used) (method : Method)
    (sentText : String) : (s.matched r c method sentText).Sound before := by
  have all : messages (s.matched r c method sentText).out = messages s.out ++ [c.messageId] := by
    simp [messages, Found.matched, Outcome.message]
  have ⟨fresh, other⟩ : c.messageId ∉ before ∧ c.messageId ∉ messages s.out := not_or.mp ((h.used _).not.mp new)
  refine ⟨fun m => ?_, ?_, ?_⟩
  · rw [all, List.mem_append, List.mem_singleton, ← or_assoc, ← h.used m, or_comm]
    exact List.mem_cons
  · rw [all]
    refine List.nodup_append.mpr ⟨h.nodup, List.nodup_singleton _, fun m mem m' is eq => ?_⟩
    exact other (List.mem_singleton.mp is ▸ eq ▸ mem)
  · rw [all]
    simpa [or_imp, forall_and] using ⟨h.fresh, fresh⟩

-- What one record's exact match can come to.
theorem matchExact_cases (sent : List SentCandidate) (text : MessageId → Option String) (s : Found) (r : Composition) :
    (matchExact sent text s r = s ∧ ∀ c, exact sent r = some c → c.messageId ∈ s.used ∨ text c.messageId = none) ∨
    ∃ c sentText, exact sent r = some c ∧ c.messageId ∉ s.used ∧ text c.messageId = some sentText ∧
      matchExact sent text s r =
        { s.matched r c .sentDraft sentText with decided := r.id :: s.decided } := by
  rw [matchExact]
  split
  case h_1 none' => exact .inl ⟨rfl, fun c is => nomatch none'.symm.trans is⟩
  case h_2 found is =>
    split
    case isTrue there =>
      refine .inl ⟨rfl, fun c is' => .inl ?_⟩
      cases is.symm.trans is'
      exact there
    case isFalse new =>
      split
      case h_1 unread =>
        refine .inl ⟨rfl, fun c is' => .inr ?_⟩
        cases is.symm.trans is'
        exact unread
      case h_2 sentText read => exact .inr ⟨found, sentText, is, new, read, rfl⟩

-- The messages that a record can be guessed to be.
def Fits (sent : List SentCandidate) (now : Millis) (text : MessageId → Option String) (r : Composition)
    (m : MessageId) : Prop :=
  ∃ c method sentText, (c, method) ∈ candidates sent now r ∧ c.messageId = m ∧ fits text r c = some sentText

theorem matchGuess_cases (sent : List SentCandidate) (now : Millis) (text : MessageId → Option String) (s : Found)
    (r : Composition) :
    (∃ c method sentText, (c, method) ∈ candidates sent now r ∧ c.messageId ∉ s.used ∧ fits text r c = some sentText ∧
      matchGuess sent now text s r = s.matched r c method sentText) ∨
    (∀ m, Fits sent now text r m → m ∈ s.used) ∧ matchGuess sent now text s r =
      if MATCH_WINDOW_MS < now - r.createdAt then { s with out := s.out ++ [(r.id, .unmatched)] } else s := by
  rw [matchGuess]
  dsimp only
  split
  case h_1 c method sentText guess =>
    obtain ⟨⟨c', method'⟩, mem, is⟩ := List.exists_of_findSome?_eq_some guess
    dsimp only at is
    split at is
    case isTrue => cases is
    case isFalse new =>
      obtain ⟨sentText', read, eq⟩ := Option.map_eq_some_iff.mp is
      cases eq
      exact .inl ⟨_, _, _, mem, new, read, rfl⟩
  case h_2 none' =>
    refine .inr ⟨?_, rfl⟩
    rintro m ⟨c, method, sentText, mem, rfl, read⟩
    have := List.findSome?_eq_none_iff.mp none' _ mem
    by_contra new
    simp [new, read] at this

theorem sound_matchExact (h : s.Sound before) : (matchExact sent text s r).Sound before := by
  rcases matchExact_cases sent text s r with ⟨eq, _⟩ | ⟨c, sentText, _, new, _, eq⟩
  · rwa [eq]
  · rw [eq]
    have ⟨used, nodup, fresh⟩ := h.matched (r := r) c new .sentDraft sentText
    exact ⟨used, nodup, fresh⟩

theorem sound_matchGuess (h : s.Sound before) : (matchGuess sent now text s r).Sound before := by
  rcases matchGuess_cases sent now text s r with ⟨c, method, sentText, _, new, _, eq⟩ | ⟨_, eq⟩
  · exact eq ▸ h.matched c new method sentText
  · rw [eq]
    split
    case isTrue =>
      have same : messages (s.out ++ [(r.id, .unmatched)]) = messages s.out := by simp [messages, Outcome.message]
      exact ⟨same ▸ h.used, same ▸ h.nodup, same ▸ h.fresh⟩
    case isFalse => exact h

-- What is found stays found.
theorem out_matchExact (sent : List SentCandidate) (text : MessageId → Option String) (s : Found) (r : Composition) :
    s.used ⊆ (matchExact sent text s r).used ∧
      ∃ l, l.Sublist [r.id] ∧ (matchExact sent text s r).decided = l ++ s.decided ∧
        ∃ added, (matchExact sent text s r).out = s.out ++ added ∧ added.map (·.1) = l := by
  rcases matchExact_cases sent text s r with ⟨eq, _⟩ | ⟨c, sentText, _, _, _, eq⟩
  · rw [eq]
    exact ⟨fun _ => id, [], List.nil_sublist _, rfl, [], (List.append_nil _).symm, rfl⟩
  · rw [eq]
    exact ⟨fun _ => List.mem_cons_of_mem _, [r.id], .refl _, rfl, _, rfl, rfl⟩

theorem out_matchGuess (sent : List SentCandidate) (now : Millis) (text : MessageId → Option String) (s : Found)
    (r : Composition) : s.used ⊆ (matchGuess sent now text s r).used ∧
      ∃ added, (matchGuess sent now text s r).out = s.out ++ added ∧ (added.map (·.1)).Sublist [r.id] := by
  rcases matchGuess_cases sent now text s r with ⟨c, method, sentText, _, _, _, eq⟩ | ⟨_, eq⟩
  · rw [eq]
    exact ⟨fun _ => List.mem_cons_of_mem _, _, rfl, .refl _⟩
  · rw [eq]
    split
    case isTrue  => exact ⟨fun _ => id, _, rfl, .refl _⟩
    case isFalse => exact ⟨fun _ => id, [], (List.append_nil _).symm, List.nil_sublist _⟩

end Matched

section Runs

variable [Letters] {sent : List SentCandidate} {now : Millis} {text : MessageId → Option String}
variable {s : Found} {r : Composition} {rs : List Composition} {before : List MessageId}

-- A record that got a message.
def IsMatched (out : List (Int × Outcome)) (r : Composition) : Prop :=
  ∃ m method sentText d, (r.id, .matched m method sentText d) ∈ out

-- What exact matches make of what was found.
structure ExactRun (sent : List SentCandidate) (text : MessageId → Option String) (before : List MessageId)
    (rs : List Composition) (s s' : Found) : Prop where
  sound : s'.Sound before
  grows : s.used ⊆ s'.used
  added : ∃ added, s'.out = s.out ++ added ∧ (added.map (·.1)).Sublist (rs.map (·.id)) ∧
    ∀ id, id ∈ s'.decided ↔ id ∈ s.decided ∨ id ∈ added.map (·.1)
  exacts : ∀ o ∈ s'.out, o ∈ s.out ∨ ∃ r ∈ rs, ∃ c sentText d, exact sent r = some c ∧
    o = (r.id, .matched c.messageId .sentDraft sentText d)
  found : ∀ r ∈ rs, ∀ c, exact sent r = some c → c.messageId ∈ s'.used ∨ text c.messageId = none

-- What guesses make of it, newest first: a message goes to the newest record that it fits and that no other went to.
structure GuessRun (sent : List SentCandidate) (now : Millis) (text : MessageId → Option String)
    (before : List MessageId) (rs : List Composition) (s s' : Found) : Prop where
  sound : s'.Sound before
  added : ∃ added, s'.out = s.out ++ added ∧ (added.map (·.1)).Sublist (rs.map (·.id))
  window : ∀ r ∈ rs, MATCH_WINDOW_MS < now - r.createdAt → ∃ o, (r.id, o) ∈ s'.out
  guesses : ∀ o ∈ s'.out, o ∈ s.out ∨
    (∃ r ∈ rs, o = (r.id, .unmatched) ∧ MATCH_WINDOW_MS < now - r.createdAt) ∨
    ∃ r ∈ rs, ∃ m method sentText d, o = (r.id, .matched m method sentText d) ∧ m ∉ s.used ∧
      ∀ r' ∈ rs, age r < age r' → Fits sent now text r' m → IsMatched s'.out r'
  found : ∀ r ∈ rs, ∀ m, Fits sent now text r m → IsMatched s'.out r ∨ m ∈ s'.used

theorem exactRun (h : s.Sound before) : ExactRun sent text before rs s (rs.foldl (matchExact sent text) s) := by
  induction rs generalizing s
  case nil =>
    exact ⟨h, fun _ => id, ⟨[], (List.append_nil _).symm, .refl _, by simp⟩, fun _ => .inl,
      fun _ mem => absurd mem List.not_mem_nil⟩
  case cons r rs ih =>
    have ⟨sound, grows, ⟨added, out, ids, decided⟩, exacts, found⟩ :=
      @ih (matchExact sent text s r) (sound_matchExact h)
    have ⟨grows', l', sub', decided', added', out', ids'⟩ := out_matchExact sent text s r
    refine ⟨sound, fun _ mem => grows (grows' mem), ⟨added' ++ added, ?_, ?_, ?_⟩, ?_, ?_⟩
    · rw [List.foldl_cons, out, out', List.append_assoc]
    · rw [List.map_append, ids']
      exact sub'.append ids
    · intro id
      rw [List.foldl_cons, decided, decided', List.map_append, ids', List.mem_append, List.mem_append]
      tauto
    · intro o mem
      rcases exacts o mem with mem | ⟨r', mem, is⟩
      · rcases matchExact_cases sent text s r with ⟨eq, _⟩ | ⟨c, sentText, is, _, _, eq⟩
        · exact .inl (eq ▸ mem)
        · rw [eq] at mem
          rcases List.mem_append.mp mem with mem | mem
          · exact .inl mem
          · exact .inr ⟨r, List.mem_cons_self, c, sentText, _, is, List.mem_singleton.mp mem⟩
      · exact .inr ⟨r', List.mem_cons_of_mem _ mem, is⟩
    · refine List.forall_mem_cons.mpr ⟨fun c is => ?_, found⟩
      rcases matchExact_cases sent text s r with ⟨eq, none'⟩ | ⟨c', sentText, is', _, _, eq⟩
      · exact (none' c is).imp_left fun mem => grows (grows' mem)
      · cases is.symm.trans is'
        exact .inl (grows (eq ▸ List.mem_cons_self))

theorem guessRun (h : s.Sound before) (sorted : rs.Pairwise fun r r' => age r' ≤ age r) :
    GuessRun sent now text before rs s (rs.foldl (matchGuess sent now text) s) := by
  induction rs generalizing s
  case nil =>
    exact ⟨h, ⟨[], (List.append_nil _).symm, .refl _⟩, fun _ mem => absurd mem List.not_mem_nil, fun _ => .inl,
      fun _ mem => absurd mem List.not_mem_nil⟩
  case cons r rs ih =>
    have ⟨older, sorted⟩ := List.pairwise_cons.mp sorted
    have ⟨sound, ⟨added, out, ids⟩, window, guesses, found⟩ :=
      @ih (matchGuess sent now text s r) (sound_matchGuess h) sorted
    have ⟨grows, added', out', ids'⟩ := out_matchGuess sent now text s r
    refine ⟨sound, ⟨added' ++ added, ?_, ?_⟩, ?_, ?_, List.forall_mem_cons.mpr ⟨fun m fit => ?_, found⟩⟩
    · rw [List.foldl_cons, out, out', List.append_assoc]
    · rw [List.map_append]
      exact ids'.append ids
    · refine List.forall_mem_cons.mpr ⟨fun past => ?_, window⟩
      rw [List.foldl_cons, out]
      rcases matchGuess_cases sent now text s r with ⟨c, method, sentText, _, _, _, eq⟩ | ⟨_, eq⟩
      · rw [eq]
        exact ⟨_, List.mem_append_left _ (List.mem_append_right _ (List.mem_singleton_self _))⟩
      · rw [eq, if_pos past]
        exact ⟨_, List.mem_append_left _ (List.mem_append_right _ (List.mem_singleton_self _))⟩
    · intro o mem
      rcases guesses o mem with mem | ⟨r', memR, none'⟩ | ⟨r', memR, m, method, sentText, d, eq, new, newest⟩
      · rcases matchGuess_cases sent now text s r with ⟨c, method, sentText, _, new, _, eq⟩ | ⟨_, eq⟩
        · rw [eq] at mem
          rcases List.mem_append.mp mem with mem | mem
          · exact .inl mem
          · refine .inr (.inr ⟨r, List.mem_cons_self, _, _, _, _, List.mem_singleton.mp mem, new, ?_⟩)
            refine List.forall_mem_cons.mpr ⟨fun lt => absurd lt (lt_irrefl _), fun r' memR lt => ?_⟩
            exact absurd (older r' memR) (not_le.mpr lt)
        · rw [eq] at mem
          split at mem
          case isFalse     => exact .inl mem
          case isTrue past =>
            rcases List.mem_append.mp mem with mem | mem
            · exact .inl mem
            · exact .inr (.inl ⟨r, List.mem_cons_self, List.mem_singleton.mp mem, past⟩)
      · exact .inr (.inl ⟨r', List.mem_cons_of_mem _ memR, none'⟩)
      · refine .inr (.inr ⟨r', List.mem_cons_of_mem _ memR, m, method, sentText, d, eq, fun mem => new (grows mem), ?_⟩)
        refine List.forall_mem_cons.mpr ⟨fun _ fit => ?_, newest⟩
        rcases matchGuess_cases sent now text s r with ⟨c, method, sentText, _, _, _, eq⟩ | ⟨all, _⟩
        · rw [List.foldl_cons, out, eq]
          exact ⟨_, _, _, _, List.mem_append_left _ (List.mem_append_right _ (List.mem_singleton_self _))⟩
        · exact absurd (grows (all m fit)) new
    -- Only a message that another record has, is not taken.
    · rcases matchGuess_cases sent now text s r with ⟨c, method, sentText, _, _, _, eq⟩ | ⟨all, _⟩
      · rw [List.foldl_cons, out, eq]
        exact .inl ⟨_, _, _, _, List.mem_append_left _ (List.mem_append_right _ (List.mem_singleton_self _))⟩
      · refine .inr ((sound.used m).mpr (((h.used m).mp (all m fit)).imp_right fun mem => ?_))
        rw [out, out', messages, List.filterMap_append, List.filterMap_append]
        exact List.mem_append_left _ (List.mem_append_left _ mem)

section Passes

variable {waiting rest : List Composition} {used : List MessageId} {s' : Found}

omit [Letters] in
theorem ExactRun.isMatched (h : ExactRun sent text used waiting { used } s) (mem : r.id ∈ s.decided) :
    IsMatched s.out r := by
  have ⟨added, out, _, decided⟩ := h.added
  have there : r.id ∈ added.map (·.1) := ((decided r.id).mp mem).resolve_left List.not_mem_nil
  obtain ⟨⟨id, o⟩, there, rfl⟩ := List.mem_map.mp there
  have there : (r.id, o) ∈ s.out := out ▸ there
  have ⟨r', _, c, sentText, d, _, eq⟩ := (h.exacts _ there).resolve_left List.not_mem_nil
  exact ⟨_, _, _, _, (Prod.mk.inj eq).right ▸ there⟩

theorem GuessRun.grows (h : GuessRun sent now text used rest s s') : s.out ⊆ s'.out := by
  have ⟨_, out, _⟩ := h.added
  exact fun _ mem => out ▸ List.mem_append_left _ mem

variable (exactly : ExactRun sent text used waiting { used } s) (guessed : GuessRun sent now text used rest s s')
variable (remain : ∀ r, r ∈ rest ↔ r ∈ waiting ∧ r.id ∉ s.decided)

include exactly guessed remain

theorem out_ids_nodup (ids : (waiting.map (·.id)).Nodup) (restIds : (rest.map (·.id)).Nodup) :
    (s'.out.map (·.1)).Nodup := by
  have ⟨added, out, sub, decided⟩ := exactly.added
  have ⟨added', out', sub'⟩ := guessed.added
  rw [out', out, List.map_append, List.nil_append, List.nodup_append]
  refine ⟨ids.sublist sub, restIds.sublist sub', ?_⟩
  rintro id there _ other rfl
  obtain ⟨r, mem, rfl⟩ := List.mem_map.mp (sub'.subset other)
  exact ((remain r).mp mem).right ((decided _).mpr (.inr there))

theorem out_waits {o : Int × Outcome} (mem : o ∈ s'.out) : ∃ r ∈ waiting, r.id = o.1 := by
  rcases guessed.guesses o mem with mem | ⟨r, memR, rfl, _⟩ | ⟨r, memR, m, method, sentText, d, rfl, _⟩
  · have ⟨r, hr, c, sentText, d, _, eq⟩ := (exactly.exacts o mem).resolve_left List.not_mem_nil
    exact ⟨r, hr, eq ▸ rfl⟩
  · exact ⟨r, ((remain r).mp memR).left, rfl⟩
  · exact ⟨r, ((remain r).mp memR).left, rfl⟩

omit [Letters] guessed in
theorem matched_or_rest (mem : r ∈ waiting) : IsMatched s.out r ∨ r ∈ rest := by
  by_cases there : r.id ∈ s.decided
  · exact .inl (exactly.isMatched there)
  · exact .inr ((remain r).mpr ⟨mem, there⟩)

theorem outcome_iff (ids : (waiting.map (·.id)).Nodup) (mem : r ∈ waiting) :
    (∃ o, (r.id, o) ∈ s'.out) ↔ IsMatched s'.out r ∨ MATCH_WINDOW_MS < now - r.createdAt := by
  constructor
  · rintro ⟨o, there⟩
    rcases guessed.guesses _ there with early | ⟨r', memR, eq, past⟩ | ⟨r', _, m, method, sentText, d, eq, _⟩
    · have ⟨r', _, c, sentText, d, _, eq⟩ := (exactly.exacts _ early).resolve_left List.not_mem_nil
      exact .inl ⟨_, _, _, _, (Prod.mk.inj eq).right ▸ there⟩
    · rw [List.inj_on_of_nodup_map ids mem ((remain r').mp memR).left (Prod.mk.inj eq).left]
      exact .inr past
    · exact .inl ⟨_, _, _, _, (Prod.mk.inj eq).right ▸ there⟩
  · rintro (⟨m, method, sentText, d, there⟩ | past)
    · exact ⟨_, there⟩
    · rcases matched_or_rest exactly remain mem with ⟨m, method, sentText, d, there⟩ | memR
      · exact ⟨_, guessed.grows there⟩
      · exact guessed.window r memR past

-- The exact copy of a record is matched as one.
omit remain in
theorem exact_matched (mem : r ∈ waiting) {c : SentCandidate} (copy : exact sent r = some c)
    (new : c.messageId ∉ used) (read : text c.messageId ≠ none) :
    ∃ r' ∈ waiting, ∃ c' sentText d, exact sent r' = some c' ∧ c'.messageId = c.messageId ∧
      (r'.id, .matched c.messageId .sentDraft sentText d) ∈ s'.out := by
  have there : c.messageId ∈ messages s.out :=
    ((exactly.sound.used _).mp ((exactly.found r mem c copy).resolve_right read)).resolve_left new
  obtain ⟨o, there, eq⟩ := List.mem_filterMap.mp there
  obtain ⟨r', hr', c', sentText, d, copy', rfl⟩ := (exactly.exacts o there).resolve_left List.not_mem_nil
  have eq : c'.messageId = c.messageId := Option.some.inj eq
  exact ⟨r', hr', c', sentText, d, copy', eq, eq ▸ guessed.grows there⟩

-- A message that fits a record goes to a record, or this one gets another.
theorem fitting_given (mem : r ∈ waiting) {m : MessageId} (fit : Fits sent now text r m) (new : m ∉ used) :
    IsMatched s'.out r ∨ m ∈ messages s'.out := by
  rcases matched_or_rest exactly remain mem with ⟨_, _, _, _, there⟩ | memR
  · exact .inl ⟨_, _, _, _, guessed.grows there⟩
  · exact (guessed.found r memR m fit).imp_right fun mem => ((guessed.sound.used m).mp mem).resolve_left new

-- A guess leaves no newer record that it fits without a message.
theorem guess_newest (ids : (waiting.map (·.id)).Nodup) (mem : r ∈ waiting) {m : MessageId} {method : Method}
    {sentText : String} {d : Rat} (there : (r.id, .matched m method sentText d) ∈ s'.out) (guess : method ≠ .sentDraft)
    {r' : Composition} (mem' : r' ∈ waiting) (newer : age r < age r') (fit : Fits sent now text r' m) :
    IsMatched s'.out r' := by
  rcases guessed.guesses _ there with early | ⟨r₀, _, eq, _⟩ | ⟨r₀, memR, m₀, method₀, text₀, d₀, eq, _, newest⟩
  · have ⟨_, _, c, _, _, _, eq⟩ := (exactly.exacts _ early).resolve_left List.not_mem_nil
    cases (Prod.mk.inj eq).right
    exact absurd rfl guess
  · cases (Prod.mk.inj eq).right
  · have ⟨idEq, outcome⟩ := Prod.mk.inj eq
    cases outcome
    obtain rfl := List.inj_on_of_nodup_map ids mem ((remain r₀).mp memR).left idEq
    rcases matched_or_rest exactly remain mem' with ⟨_, _, _, _, there⟩ | memR'
    · exact ⟨_, _, _, _, guessed.grows there⟩
    · exact newest r' memR' newer fit

end Passes

-- Each record has at most one outcome and each message is one record's: the exact copy's if a record has one, or else
-- the newest record's that it fits and that gets no other.
theorem matchRecords_matching (sent : List SentCandidate) (now : Millis) (text : MessageId → Option String)
    (waiting : List Composition) (ids : (waiting.map (·.id)).Nodup) (used : List MessageId) :
    let out := matchRecords sent now text waiting used
    ((out.map (·.1)).Nodup ∧ (∀ o ∈ out, ∃ r ∈ waiting, r.id = o.1) ∧
      ∀ r ∈ waiting, (∃ o, (r.id, o) ∈ out) ↔ IsMatched out r ∨ MATCH_WINDOW_MS < now - r.createdAt) ∧
    ((messages out).Nodup ∧ ∀ m ∈ messages out, m ∉ used) ∧
    (∀ r ∈ waiting, ∀ c, exact sent r = some c → c.messageId ∉ used → text c.messageId ≠ none →
      ∃ r' ∈ waiting, ∃ c' sentText d, exact sent r' = some c' ∧ c'.messageId = c.messageId ∧
        (r'.id, .matched c.messageId .sentDraft sentText d) ∈ out) ∧
    (∀ r ∈ waiting, ∀ m, Fits sent now text r m → m ∉ used → IsMatched out r ∨ m ∈ messages out) ∧
    ∀ r ∈ waiting, ∀ m method sentText d, (r.id, .matched m method sentText d) ∈ out → method ≠ .sentDraft →
      ∀ r' ∈ waiting, age r < age r' → Fits sent now text r' m → IsMatched out r' := by
  have start : Found.Sound used { used } :=
    ⟨by simp [messages], List.nodup_nil, fun _ mem => absurd mem List.not_mem_nil⟩
  have exactly := @exactRun _ sent text _ waiting _ start
  simp only [matchRecords]
  generalize waiting.foldl (matchExact sent text) { used } = s at *
  have remain (r) : r ∈ Keyset.order age (waiting.filter (·.id ∉ s.decided)) ↔ r ∈ waiting ∧ r.id ∉ s.decided := by
    rw [Keyset.perm_order.mem_iff, List.mem_filter, decide_eq_true_iff]
  have apart : (waiting.filter (·.id ∉ s.decided)).Pairwise (age · ≠ age ·) :=
    ((List.pairwise_map.mp ids).imp fun ne same => ne (Prod.mk.inj (toLex.injective same)).right).filter _
  have sorted := Keyset.order_descending apart
  have perm := (@Keyset.perm_order _ _ _ age (waiting.filter (·.id ∉ s.decided))).map (·.id)
  have restIds := perm.nodup_iff.mpr (ids.sublist (List.filter_sublist.map _))
  generalize Keyset.order age _ = rest at *
  have guessed := @guessRun _ sent now text _ _ _ exactly.sound (sorted.imp le_of_lt)
  refine ⟨⟨out_ids_nodup exactly guessed remain ids restIds, fun _ => out_waits exactly guessed remain, ?_⟩,
    ⟨guessed.sound.nodup, guessed.sound.fresh⟩, fun _ mem _ => exact_matched exactly guessed mem,
    fun _ mem _ => fitting_given exactly guessed remain mem, ?_⟩
  · exact fun _ mem => outcome_iff exactly guessed remain ids mem
  · exact fun _ mem _ _ _ _ there guess _ => guess_newest exactly guessed remain ids mem there guess

end Runs

private abbrev reply : Composition where
  id := 1; createdAt := 100; kind := .reply; threadId := some "t1"; aiText := some "Friday at noon works well for me."

private abbrev answer : SentCandidate where
  messageId := "m1"; threadId := "t1"; sentAt := 200

theorem matchRecords_matching_newest :
    let out := @matchRecords Facts.ascii [answer, { answer with messageId := "m2", sentAt := 300 }] 400
      (fun _ => some "Friday at noon works.") [reply, { reply with id := 2, createdAt := 150 }] []
    out.map (fun o => (o.1, o.2.message)) = [(2, some "m1")] ∧ (messages out).Nodup :=
  letI := Facts.ascii
  ⟨by decide +kernel,
    (matchRecords_matching _ _ _ [reply, { reply with id := 2, createdAt := 150 }] (by decide) _).right.left.left⟩

-- A record without a message waits, and of two with one Message-ID the first gets the message.
theorem waiting_left_out :
    @matchRecords Facts.ascii [] 400 (fun _ => none) [reply] [] = [] ∧
      (@matchRecords Facts.ascii [{ answer with rfc822MessageId := some "x" }] 400 (fun _ => some "")
        [{ reply with rfc822MessageId := some "x" },
          { reply with id := 2, createdAt := 150, rfc822MessageId := some "x" }] []).map (·.1) = [1] := by
  decide +kernel

end Kaluta.Matching
