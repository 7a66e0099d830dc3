import Kaluta.Backfill.Ordered
import Mathlib.Data.Finset.Card

-- The headers pass: rows with headers only for what the queue waits for, as far as the source has them cheaply.
namespace Kaluta.Backfill

-- What a call of the source makes of the ids asked for: their headers, or none where it fails or cannot do it now.
structure Source where
  fetchHeaders : List String → Option (List String)
  cheapHeaders : Bool

structure State where
  queue          : Queue
  sound          : Sound queue
  messages       : Messages
  -- Ids that the source did not return, which the pass stops asking for.
  missed         : Finset String
  headersWaiting : Bool
  -- Whether the headers-only tier is Clean Up's.
  tierWaits      : Bool

namespace State

-- Stores headers where there is no row yet.
def upsert (messages : Messages) (headers : List String) : Messages :=
  fun id => if id ∈ headers ∧ messages id = none then some .metadata else messages id

-- The ids that a pass takes.
def taken (max : Nat) (s : State) : List String :=
  ((forHeaders s.messages (max + s.missed.card) s.queue).filter (· ∉ s.missed)).take max

-- Returns the progress made: rows stored and headers-only ids finished.
def headersPass (max : Nat) (source : Source) (s : State) : State × Nat :=
  let ids := s.taken max
  if ids = [] then (s, 0)
  else match source.fetchHeaders ids with
  | none         =>
    if source.cheapHeaders then (s, 0)
    else if s.tierWaits then ({ s with headersWaiting := true }, 0)
    else ({ s with queue := (promoteHeadersOnly s.queue).1, sound := s.sound.promoteHeadersOnly }, 0)
  | some headers =>
    ({ s with
        queue          := (removeHeadersOnly ids s.queue).1
        sound          := s.sound.removeHeadersOnly ids
        messages       := upsert s.messages headers
        missed         := s.missed ∪ (ids.filter (· ∉ headers)).toFinset
        headersWaiting := false },
      headers.length + (removeHeadersOnly ids s.queue).2)

-- The loop of passes, as long as there is progress. The source is another one each time.
def headersLoop (max : Nat) (source : Nat → Source) : Nat → State → Option State
  | 0, _        => none
  | fuel + 1, s =>
    match s.headersPass max (source fuel) with
    | (s', 0)     => some s'
    | (s', _ + 1) => headersLoop max source fuel s'

-- What a pass could take, now or later.
def candidates (s : State) : List String :=
  ((s.queue.rows.filter fun r => r.priority ≥ HEADERS_ONLY || s.messages r.gmailId = none).map (·.gmailId)).filter
    (· ∉ s.missed)

variable {s : State} {max : Nat} {source : Source} {id : String}

theorem mem_candidates : id ∈ s.candidates ↔
    (∃ r ∈ s.queue.rows, r.gmailId = id ∧ (r.priority ≥ HEADERS_ONLY ∨ s.messages id = none)) ∧ id ∉ s.missed := by
  simp only [candidates, List.mem_filter, List.mem_map, decide_eq_true_iff, Bool.or_eq_true]
  constructor
  · rintro ⟨⟨r, ⟨mem, waits⟩, rfl⟩, unmarked⟩
    exact ⟨⟨r, mem, rfl, waits⟩, unmarked⟩
  · rintro ⟨⟨r, mem, rfl, waits⟩, unmarked⟩
    exact ⟨⟨r, ⟨mem, waits⟩, rfl⟩, unmarked⟩

theorem nodup_candidates : s.candidates.Nodup :=
  (s.sound.ids.sublist (List.filter_sublist.map _)).filter _

theorem mem_candidates_of_taken (h : id ∈ s.taken max) : id ∈ s.candidates := by
  have ⟨mem, unmarked⟩ := List.mem_filter.mp (List.mem_of_mem_take h)
  obtain ⟨r, row, rfl⟩ := List.mem_map.mp mem
  have row := (perm_ordered _).mem_iff.mp (List.mem_of_mem_take row)
  exact List.mem_filter.mpr ⟨List.mem_map_of_mem row, unmarked⟩

-- Where there are candidates, a pass takes some: it asks for as many more as are marked.
theorem taken_ne_nil (pos : 0 < max) (h : s.candidates ≠ []) : s.taken max ≠ [] := by
  intro empty
  generalize rows_eq : s.queue.rows.filter (fun r => r.priority ≥ HEADERS_ONLY || s.messages r.gmailId = none) = rows
  have none : ((forHeaders s.messages (max + s.missed.card) s.queue).filter (· ∉ s.missed)) = [] :=
    (List.take_eq_nil_iff.mp empty).resolve_left pos.ne'
  rw [forHeaders, rows_eq] at none
  have marked : ∀ id ∈ ((ordered rows).take (max + s.missed.card)).map (·.gmailId), id ∈ s.missed := by
    simpa [List.filter_eq_nil_iff] using none
  have nodup : ((ordered rows).map (·.gmailId)).Nodup := by
    refine (((perm_ordered rows).map _).nodup_iff).mpr (s.sound.ids.sublist ?_)
    exact rows_eq ▸ List.filter_sublist.map _
  have short : ((ordered rows).take (max + s.missed.card)).length ≤ s.missed.card := by
    have nodup := nodup.sublist ((List.take_sublist (max + s.missed.card) (ordered rows)).map _)
    rw [← List.length_map, ← List.toFinset_card_of_nodup nodup]
    exact Finset.card_le_card fun id mem => marked id (List.mem_toFinset.mp mem)
  have all : (ordered rows).take (max + s.missed.card) = ordered rows := by
    rw [List.length_take] at short
    exact List.take_of_length_le (by omega)
  refine h (List.filter_eq_nil_iff.mpr fun id mem => ?_)
  rw [rows_eq] at mem
  rw [all] at marked
  simpa using marked id (((perm_ordered rows).map _).mem_iff.mpr mem)

theorem of_dropped_eq_zero {q : Queue} {ids : List String} (h : (removeHeadersOnly ids q).2 = 0) :
    ∀ r ∈ q.rows, r.gmailId ∈ ids → r.priority < HEADERS_ONLY := by
  suffices ∀ dropped, ∃ more,
      (ids.foldl (fun p id =>
        let named (r : Row) : Bool := r.gmailId = id && r.priority ≥ HEADERS_ONLY
        (p.1.delete named, p.2 + p.1.rows.countP named)) (q, dropped)).2 = dropped + more ∧
      (more = 0 → ∀ r ∈ q.rows, r.gmailId ∈ ids → r.priority < HEADERS_ONLY) by
    obtain ⟨more, eq, only⟩ := this 0
    exact only ((Nat.zero_add more).symm.trans (eq.symm.trans h))
  clear h
  induction ids generalizing q
  case nil => exact fun dropped => ⟨0, rfl, (by simp)⟩
  case cons id ids ih =>
    intro dropped
    rw [List.foldl_cons]
    generalize named_eq : (fun r : Row => decide (r.gmailId = id) && decide (r.priority ≥ HEADERS_ONLY)) = named
    obtain ⟨more, eq, only⟩ := @ih (q.delete named) (dropped + q.rows.countP named)
    refine ⟨q.rows.countP named + more, by rw [eq, Nat.add_assoc], fun none r mem named' => ?_⟩
    obtain ⟨none, rest⟩ := Nat.add_eq_zero_iff.mp none
    have other : named r = false := by simpa using List.countP_eq_zero.mp none r mem
    rcases List.mem_cons.mp named' with is | later
    · simpa [← named_eq, is] using other
    · exact only rest r (List.mem_filter.mpr ⟨mem, by simpa using other⟩) later

theorem headersPass_some (taken : s.taken max ≠ []) (answer : source.fetchHeaders (s.taken max) = some headers) :
    let s' := (s.headersPass max source).1
    s'.queue = (removeHeadersOnly (s.taken max) s.queue).1 ∧ s'.messages = upsert s.messages headers ∧
      s'.missed = s.missed ∪ ((s.taken max).filter (· ∉ headers)).toFinset ∧
      (s.headersPass max source).2 = headers.length + (removeHeadersOnly (s.taken max) s.queue).2 := by
  simp only [headersPass, if_neg taken, answer, and_self]

-- What a pass takes when the source answers, it does not take again.
theorem candidates_headersPass (taken : s.taken max ≠ []) (answer : source.fetchHeaders (s.taken max) = some headers) :
    ∀ id ∈ (s.headersPass max source).1.candidates, id ∈ s.candidates ∧ id ∉ s.taken max := by
  intro id mem
  have ⟨queue, messages, missed, _⟩ := headersPass_some taken answer
  obtain ⟨⟨r, row, rfl, waits⟩, unmarked⟩ := mem_candidates.mp mem
  rw [queue, mem_removeHeadersOnly] at row
  rw [messages, upsert] at waits
  rw [missed, Finset.mem_union, not_or, List.mem_toFinset, List.mem_filter] at unmarked
  constructor
  · refine mem_candidates.mpr ⟨⟨r, row.left, rfl, waits.imp_right fun none => ?_⟩, unmarked.left⟩
    by_contra stored
    rw [if_neg fun new => stored new.right] at none
    exact stored none
  · intro asked
    have returned : r.gmailId ∈ headers := by
      by_contra other
      exact unmarked.right ⟨asked, by simpa using other⟩
    rcases waits with only | none
    · exact row.right ⟨asked, only⟩
    · split_ifs at none with new
      exact new ⟨returned, none⟩

-- A pass that reports no progress took nothing, had no answer, or had one without any of the ids, which all wait for
-- bodies.
theorem headersPass_eq_zero (pos : 0 < max) (h : (s.headersPass max source).2 = 0) :
    s.candidates = [] ∨ source.fetchHeaders (s.taken max) = none ∨
      source.fetchHeaders (s.taken max) = some [] ∧ ∀ r ∈ s.queue.rows, r.gmailId ∈ s.taken max →
        r.priority < HEADERS_ONLY := by
  by_cases none : s.candidates = []
  · exact .inl none
  · have taken := taken_ne_nil pos none
    cases answer : source.fetchHeaders (s.taken max)
    case none => exact .inr (.inl rfl)
    case some headers =>
      have ⟨_, _, _, progress⟩ := headersPass_some taken answer
      rw [h] at progress
      have ⟨empty, dropped⟩ := Nat.add_eq_zero_iff.mp progress.symm
      rw [List.length_eq_zero_iff.mp empty]
      exact .inr (.inr ⟨rfl, of_dropped_eq_zero dropped⟩)

theorem candidates_length (h : (s.headersPass max source).2 ≠ 0) :
    (s.headersPass max source).1.candidates.length < s.candidates.length := by
  have taken : s.taken max ≠ [] := by
    intro empty
    exact h (by rw [headersPass, if_pos empty])
  cases answer : source.fetchHeaders (s.taken max)
  case none =>
    refine absurd ?_ h
    simp only [headersPass, if_neg taken, answer]
    split_ifs <;> rfl
  case some headers =>
    have sub := candidates_headersPass taken answer
    obtain ⟨id, asked⟩ := List.exists_mem_of_ne_nil _ taken
    rw [← List.toFinset_card_of_nodup nodup_candidates, ← List.toFinset_card_of_nodup nodup_candidates]
    refine Finset.card_lt_card (Finset.ssubset_iff_subset_ne.mpr ⟨fun id mem => ?_, fun eq => ?_⟩)
    · exact List.mem_toFinset.mpr (sub id (List.mem_toFinset.mp mem)).left
    · have mem := List.mem_toFinset.mpr (mem_candidates_of_taken asked)
      rw [← eq] at mem
      exact (sub id (List.mem_toFinset.mp mem)).right asked

theorem headersLoop_ends (sources : Nat → Source) (fuel : s.candidates.length < n) :
    ∃ s', headersLoop max sources n s = some s' := by
  induction n generalizing s
  case zero => cases fuel
  case succ n ih =>
    rw [headersLoop]
    split
    case h_1 s' is => exact ⟨s', rfl⟩
    case h_2 s' progress is =>
      have less : (s.headersPass max (sources n)).1.candidates.length < s.candidates.length :=
        candidates_length (by rw [is]; exact Nat.succ_ne_zero progress)
      rw [is] at less
      exact ih (Nat.lt_of_lt_of_le less (Nat.le_of_lt_succ fuel))

-- Where the source answers, what a pass took is stored, gone from the queue, or marked, and not taken again. It reports
-- no progress only where nothing is left, the source has no answer, or the answer is empty and only bodies are waited
-- for. The loop of passes ends, whatever the source does.
theorem headersPass_progress (max : Nat) (pos : 0 < max) (s : State) :
    (∀ source headers, source.fetchHeaders (s.taken max) = some headers →
      let s' := (s.headersPass max source).1
      ∀ id ∈ s.taken max, (id ∈ headers ∧ s'.messages id ≠ none ∨ id ∉ orderedIds s'.queue ∨ id ∈ s'.missed) ∧
        id ∉ s'.candidates) ∧
    (∀ source, (s.headersPass max source).2 = 0 →
      s.candidates = [] ∨ source.fetchHeaders (s.taken max) = none ∨
        source.fetchHeaders (s.taken max) = some [] ∧
          ∀ r ∈ s.queue.rows, r.gmailId ∈ s.taken max → r.priority < HEADERS_ONLY) ∧
    ∀ sources fuel, s.candidates.length < fuel → ∃ s', headersLoop max sources fuel s = some s' := by
  refine ⟨fun source headers answer id asked => ?_, fun _ => headersPass_eq_zero pos,
    fun sources _ => headersLoop_ends sources⟩
  have taken := List.ne_nil_of_mem asked
  refine ⟨?_, fun mem => (candidates_headersPass taken answer id mem).right asked⟩
  have ⟨_, messages, missed, _⟩ := headersPass_some taken answer
  by_cases returned : id ∈ headers
  · refine .inl ⟨returned, ?_⟩
    rw [messages, upsert]
    split_ifs with new
    · nofun
    · exact fun none => new ⟨returned, none⟩
  · refine .inr (.inr ?_)
    rw [missed, Finset.mem_union, List.mem_toFinset, List.mem_filter]
    exact .inr ⟨asked, by simpa using returned⟩

-- Two ids wait for bodies.
def twoWait : State where
  queue          := { rows := [⟨1, 2, "a"⟩, ⟨2, 2, "b"⟩], sequence := 2 }
  sound          := by constructor <;> simp
  messages       := fun _ => none
  missed         := ∅
  headersWaiting := false
  tierWaits      := false

theorem taken_twoWait : twoWait.taken 1 = ["a"] := by
  have : ordered twoWait.queue.rows = twoWait.queue.rows := ordered_of_pairwise (by decide)
  rw [taken, forHeaders, show twoWait.queue.rows.filter _ = twoWait.queue.rows from rfl, this]
  decide

theorem headersPass_progress_twoWait :
    ∃ s', headersLoop 1 (fun _ => { fetchHeaders := some, cheapHeaders := true }) 3 twoWait = some s' :=
  (headersPass_progress 1 Nat.one_pos twoWait).right.right _ 3 (by decide)

-- The source has none of the ids of a batch: the pass reports no progress while another id is left.
theorem headersPass_none :
    let source : Source := { fetchHeaders := fun _ => some [], cheapHeaders := true }
    (twoWait.headersPass 1 source).2 = 0 ∧ (twoWait.headersPass 1 source).1.candidates = ["b"] := by
  intro source
  have taken : twoWait.taken 1 ≠ [] := taken_twoWait ▸ List.cons_ne_nil "a" []
  have ⟨queue, messages, missed, progress⟩ := headersPass_some taken (show source.fetchHeaders _ = some [] from rfl)
  rw [progress, candidates, queue, messages, missed, taken_twoWait]
  decide

end State

end Kaluta.Backfill
