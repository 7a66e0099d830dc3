import Kaluta.Permissions.Guard
import Mathlib.Data.List.TakeWhile

namespace Kaluta.Permissions

open Agents.Session (ThreadId Scope)

namespace SessionGuard

variable {g : SessionGuard} {action : ProposedAction} {now later : Millis}

@[simp]
theorem touched_expire : (g.expire now).touched = g.touched :=
  rfl

theorem dropWhile_dropWhile {p q : α → Bool} {l : List α} (h : ∀ a, p a → q a) :
    (l.dropWhile p).dropWhile q = l.dropWhile q := by
  induction l
  case nil => rfl
  case cons a l ih =>
    by_cases hp : p a
    case pos => rw [List.dropWhile_cons_of_pos hp, ih, List.dropWhile_cons_of_pos (h a hp)]
    case neg => rw [List.dropWhile_cons_of_neg hp]

-- Forgetting old calls now leaves what a later check forgets as it is.
theorem expire_expire (h : now ≤ later) : (g.expire now).expire later = g.expire later := by
  have weaker : ∀ t : Millis, decide (MINUTE ≤ now - t) → decide (MINUTE ≤ later - t) := by
    intro t old
    exact decide_eq_true ((of_decide_eq_true old).trans (Int.sub_le_sub_right h t))
  simp only [expire, dropWhile_dropWhile weaker]

theorem check_expire (h : now ≤ later) : (g.expire now).check action later = g.check action later := by
  rw [check, check, expire_expire h]

theorem check_cases (g : SessionGuard) (action : ProposedAction) (now : Millis) :
    (∃ reason, (g.expire now).refusal action = some reason ∧ g.check action now = (g.expire now, .error reason)) ∨
    ((g.expire now).refusal action = none ∧ g.check action now = ((g.expire now).count action now, .ok ())) := by
  rw [check]
  cases hr : (g.expire now).refusal action
  case none   => exact .inr ⟨rfl, rfl⟩
  case some r => exact .inl ⟨r, rfl, rfl⟩

-- What passed has passed each test.
theorem passed (h : g.refusal action = none) :
    g.recentCalls.length < MAX_CALLS_PER_MINUTE ∧
    (action.tool.risk ≠ .readOnly → g.touched.card + (g.listedNew action).length ≤ MAX_THREADS_PER_SESSION) := by
  obtain ⟨early, h⟩ := Option.or_eq_none_iff.mp h
  obtain ⟨cap, _⟩ := Option.or_eq_none_iff.mp h
  constructor
  · by_contra full
    rw [refusedEarlier, if_pos (Nat.le_of_not_lt full)] at early
    exact nomatch early
  · intro risk
    by_contra exceeds
    rw [refusedForCap, if_pos ⟨risk, Nat.lt_of_not_le exceeds⟩] at cap
    exact nomatch cap

theorem refusedEarlier_ne (h : g.refusedEarlier action = some reason) : reason ≠ .sessionBulkCap := by
  rw [refusedEarlier] at h
  split at h
  · cases h; nofun
  · split at h
    · exact nomatch h
    · split at h
      · cases h; nofun
      · split at h
        · cases h; nofun
        · exact nomatch h

theorem refusedForDraft_ne (h : g.refusedForDraft action = some reason) : reason ≠ .sessionBulkCap := by
  rw [refusedForDraft] at h
  split at h
  · split at h
    · cases h; nofun
    · split at h
      · exact nomatch h
      · cases h; nofun
  · exact nomatch h

-- The cap refuses what passes the earlier tests and, counted as listed, exceeds it.
theorem refusal_eq_cap : g.refusal action = some .sessionBulkCap ↔
    g.refusedEarlier action = none ∧ action.tool.risk ≠ .readOnly ∧
    MAX_THREADS_PER_SESSION < g.touched.card + (g.listedNew action).length := by
  rw [refusal]
  cases early : g.refusedEarlier action
  case some r => simpa using refusedEarlier_ne early
  case none =>
    rw [Option.none_or, refusedForCap]
    split
    case isTrue exceeds  => simpa using exceeds
    case isFalse fits =>
      simp only [Option.none_or, true_and, fits, iff_false]
      exact fun draft => refusedForDraft_ne draft rfl

theorem toFinset_listedNew : (g.listedNew action).toFinset = action.threadIds.toFinset \ g.touched := by
  ext t
  simp [listedNew]

theorem card_touch_le : (g.touched ∪ action.threadIds.toFinset).card ≤ g.touched.card + (g.listedNew action).length := by
  rw [← Finset.union_sdiff_self_eq_union, ← toFinset_listedNew]
  exact (Finset.card_union_le _ _).trans (Nat.add_le_add_left (List.toFinset_card_le _) _)

end SessionGuard

-- The threads that a call names more than once do not carry it over the cap.
def Made.RepeatsFit (m : Made) : Prop :=
  m.asksForMore → m.since.card + m.adds.card ≤ MAX_THREADS_PER_SESSION →
    m.since.card + (m.action.threadIds.filter (· ∉ m.since)).length ≤ MAX_THREADS_PER_SESSION

instance (m : Made) : Decidable m.RepeatsFit :=
  inferInstanceAs (Decidable (_ → _ → _))

-- What the limits are for.
structure Limited (s : State) : Prop where
  -- No rolling minute has more accepted calls than the limit.
  rate      : ∀ t, s.accepted.countP (fun x => t ≤ x ∧ x < t + MINUTE) ≤ MAX_CALLS_PER_MINUTE
  cap       : s.since.card ≤ MAX_THREADS_PER_SESSION
  exact     : ∀ m ∈ s.made, m.answer = .error .sessionBulkCap ↔
    m.asksForMore ∧ MAX_THREADS_PER_SESSION < m.since.card + m.adds.card
  -- A refused call only has old calls forgotten, and no later call is answered differently for it.
  unchanged : ∀ m ∈ s.made, m.answer ≠ .ok () → m.after = m.before.expire m.now ∧
    ∀ action later, m.now ≤ later → m.after.check action later = m.before.check action later

structure Counted (s : State) : Prop where
  since    : s.since = s.guard.touched
  cap      : s.guard.touched.card ≤ MAX_THREADS_PER_SESSION
  made     : ∀ m ∈ s.made, m.since = m.before.touched
  accepted : ∃ old, s.accepted = s.guard.recentCalls.reverse ++ old ∧
    ∀ t ∈ old, ∃ clock, s.clock = some clock ∧ MINUTE ≤ clock - t
  rate     : ∀ t, s.accepted.countP (fun x => t ≤ x ∧ x < t + MINUTE) ≤ MAX_CALLS_PER_MINUTE

namespace Counted

variable {s s' : State} {action : ProposedAction} {now : Millis}

-- Every accepted call that a check at this time leaves out is more than a minute old.
theorem expired (h : Counted s) (mono : s.clock.all (· ≤ now)) :
    ∃ old, s.accepted = (s.guard.expire now).recentCalls.reverse ++ old ∧ ∀ t ∈ old, MINUTE ≤ now - t := by
  obtain ⟨old, split, aged⟩ := h.accepted
  let gone := s.guard.recentCalls.takeWhile fun t => MINUTE ≤ now - t
  have parts : s.guard.recentCalls = gone ++ (s.guard.expire now).recentCalls :=
    List.takeWhile_append_dropWhile.symm
  refine ⟨gone.reverse ++ old, ?_, fun t ht => ?_⟩
  · rw [split, ← List.append_assoc, ← List.reverse_append, ← parts]
  · rcases List.mem_append.mp ht with ht | ht
    · have mem : t ∈ gone := List.mem_reverse.mp ht
      exact of_decide_eq_true (List.mem_takeWhile_imp (p := fun t => decide (MINUTE ≤ now - t)) mem)
    · obtain ⟨clock, eq, aged⟩ := aged t ht
      rw [eq] at mono
      have mono : clock ≤ now := by simpa using mono
      exact aged.trans (Int.sub_le_sub_right mono t)

-- A call accepted when fewer than the limit are left of the last minute keeps every minute within it.
theorem rate_cons (h : Counted s) (mono : s.clock.all (· ≤ now))
    (room : (s.guard.expire now).recentCalls.length < MAX_CALLS_PER_MINUTE) (t : Millis) :
    (now :: s.accepted).countP (fun x => t ≤ x ∧ x < t + MINUTE) ≤ MAX_CALLS_PER_MINUTE := by
  by_cases within : t ≤ now ∧ now < t + MINUTE
  case neg => rw [List.countP_cons_of_neg (by simpa using within)]; exact h.rate t
  case pos =>
    obtain ⟨old, parts, aged⟩ := h.expired mono
    have none : old.countP (fun x => t ≤ x ∧ x < t + MINUTE) = 0 := by
      refine List.countP_eq_zero.mpr fun x hx => ?_
      have old : x + MINUTE ≤ now := Int.add_le_of_le_sub_left (aged x hx)
      rw [decide_eq_true_eq]
      intro ⟨later, _⟩
      exact absurd (within.right.trans_le (Int.add_le_add_right later _)) (not_lt_of_ge old)
    rw [List.countP_cons_of_pos (by simpa using within), parts, List.countP_append, none]
    refine (Nat.succ_le_succ (List.countP_le_length ..)).trans ?_
    rwa [List.length_reverse]

theorem checked (h : Counted s) (mono : s.clock.all (· ≤ now)) : Counted (s.checked action now) := by
  have made : ∀ m ∈ (⟨s.guard, s.since, action, now⟩ : Made) :: s.made, m.since = m.before.touched :=
    List.forall_mem_cons.mpr ⟨h.since, h.made⟩
  obtain ⟨old, parts, aged⟩ := h.expired mono
  obtain ⟨reason, _, eq⟩ | ⟨none, eq⟩ := s.guard.check_cases action now
  · simp only [State.checked, eq]
    exact ⟨h.since, h.cap, made, ⟨old, parts, fun t ht => ⟨now, rfl, aged t ht⟩⟩, h.rate⟩
  · have ⟨room, fits⟩ := SessionGuard.passed none
    simp only [State.checked, eq]
    refine ⟨?_, ?_, made, ⟨old, ?_, fun t ht => ⟨now, rfl, aged t ht⟩⟩, h.rate_cons mono room⟩
    · simp only [SessionGuard.count, SessionGuard.touched_expire, h.since]
    · simp only [SessionGuard.count]
      split
      · exact h.cap
      · exact SessionGuard.card_touch_le.trans (fits ‹_›)
    · simp only [SessionGuard.count, List.reverse_append, List.reverse_singleton, List.cons_append, List.nil_append]
      rw [parts]

theorem step (h : Counted s) (hs : s.step a = some s') : Counted s' := by
  cases a <;> simp only [State.step] at hs
  case check action now =>
    split at hs <;> cases hs
    exact h.checked ‹_›
  case allowDraft draft =>
    cases hs
    exact ⟨h.since, h.cap, h.made, h.accepted, h.rate⟩
  case newUserPrompt =>
    cases hs
    exact ⟨rfl, Nat.zero_le _, h.made, h.accepted, h.rate⟩

end Counted

theorem State.reachable_counted {s : State} (h : sessions.Reachable (fun _ _ => True) s) : Counted s := by
  refine h.invariant (fun s hs => ?_) fun _ _ _ h _ hs => h.step hs
  obtain ⟨scope, rfl⟩ := hs
  exact ⟨rfl, Nat.zero_le _, fun _ h => absurd h List.not_mem_nil, ⟨[], rfl, fun _ h => absurd h List.not_mem_nil⟩,
    fun _ => Nat.zero_le _⟩

namespace Made

variable {m : Made}

theorem answer_eq_error : m.answer = .error reason ↔ (m.before.expire m.now).refusal m.action = some reason := by
  rw [answer]
  obtain ⟨r, hr, eq⟩ | ⟨none, eq⟩ := m.before.check_cases m.action m.now
  · rw [eq, hr]
    exact ⟨fun h => by cases h; rfl, fun h => by cases h; rfl⟩
  · rw [eq, none]
    exact ⟨nofun, nofun⟩

theorem after_of_refused (h : m.answer ≠ .ok ()) : m.after = m.before.expire m.now := by
  obtain ⟨_, _, eq⟩ | ⟨_, eq⟩ := m.before.check_cases m.action m.now
  · rw [after, eq]
  · exact absurd (by rw [answer, eq]) h

-- The cap is exact for a call exactly when what it repeats does not carry it over.
theorem exact_iff (h : m.since = m.before.touched) :
    (m.answer = .error .sessionBulkCap ↔ m.asksForMore ∧ MAX_THREADS_PER_SESSION < m.since.card + m.adds.card) ↔
    m.RepeatsFit := by
  have fewer : m.adds.card ≤ (m.action.threadIds.filter (· ∉ m.since)).length := by
    have := List.toFinset_card_le (m.before.listedNew m.action)
    rwa [SessionGuard.toFinset_listedNew, ← h, SessionGuard.listedNew, ← h] at this
  rw [answer_eq_error, SessionGuard.refusal_eq_cap, SessionGuard.listedNew, SessionGuard.touched_expire, ← h,
    ← and_assoc, and_comm (a := _ = none), ← asksForMore, RepeatsFit]
  constructor
  · intro exact_ asks fits
    by_contra exceeds
    have := (exact_.mp ⟨asks, Nat.lt_of_not_le exceeds⟩).right
    omega
  · intro fit
    refine and_congr_right fun asks => ⟨fun exceeds => ?_, fun exceeds => by omega⟩
    by_contra fits
    have := fit asks (Nat.le_of_not_lt fits)
    omega

end Made

-- In every run the limits hold, with a cap that is exact, exactly when no call's repeats carry it over.
theorem State.reachable_limited_iff {s : State} (h : sessions.Reachable (fun _ _ => True) s) :
    Limited s ↔ ∀ m ∈ s.made, m.RepeatsFit := by
  have counted := reachable_counted h
  constructor
  · exact fun limited m hm => (Made.exact_iff (counted.made m hm)).mp (limited.exact m hm)
  · intro fit
    refine ⟨counted.rate, counted.since ▸ counted.cap, fun m hm => (Made.exact_iff (counted.made m hm)).mpr (fit m hm),
      fun m _ refused => ⟨Made.after_of_refused refused, fun action later mono => ?_⟩⟩
    rw [Made.after_of_refused refused, SessionGuard.check_expire mono]

-- A thread is archived twice in one call, and once more.
def archivedTwice : State :=
  (({ guard := { scope := .mailbox } } : State).checked ⟨.archive, ["t1", "t1"], none⟩ 0).checked
    ⟨.archive, ["t1"], none⟩ 1

theorem archivedTwice_reachable : sessions.Reachable (fun _ _ => True) archivedTwice :=
  .step (a := .check ⟨.archive, ["t1"], none⟩ 1)
    (.step (a := .check ⟨.archive, ["t1", "t1"], none⟩ 0) (.start ⟨.mailbox, rfl⟩) trivial rfl) trivial rfl

theorem limited_archivedTwice : Limited archivedTwice :=
  (State.reachable_limited_iff archivedTwice_reachable).mpr (by decide)

section Busy

-- Threads with names of different lengths.
def thread (n : Nat) : ThreadId := String.ofList (List.replicate n 'a')

theorem thread_injective : Function.Injective thread := by
  intro m n h
  have := congrArg List.length (String.ofList_injective h)
  simpa using this

def batch (k : Nat) : List ThreadId := (List.range 199).map fun i => thread (199 * k + i)

-- A session that archives threads it has not touched, a minute apart.
def busy : Nat → State
  | 0     => { guard := { scope := .mailbox } }
  | k + 1 => (busy k).checked ⟨.archive, batch k, none⟩ (k * MINUTE)

theorem clock_checked (s : State) : (s.checked action now).clock = some now := by
  obtain ⟨_, _, eq⟩ | ⟨_, eq⟩ := s.guard.check_cases action now <;> simp only [State.checked, eq]

theorem busy_clock (k : Nat) : (busy k).clock.all (· ≤ k * MINUTE) := by
  cases k
  case zero => rfl
  case succ k =>
    have le : (k : Millis) * MINUTE ≤ ((k + 1 : Nat) : Millis) * MINUTE := by
      rw [MINUTE, Int.natCast_add]
      exact Int.mul_le_mul_of_nonneg_right (Int.le_add_one le_rfl) (by decide)
    rw [busy, clock_checked, Option.all_some]
    exact decide_eq_true le

theorem reachable_checked {s : State} (h : sessions.Reachable (fun _ _ => True) s) (mono : s.clock.all (· ≤ now)) :
    sessions.Reachable (fun _ _ => True) (s.checked action now) :=
  have step : sessions.step s (.check action now) = some (s.checked action now) := by
    simp only [sessions, State.step, mono, if_true]
  .step h trivial step

theorem busy_reachable (k : Nat) : sessions.Reachable (fun _ _ => True) (busy k) := by
  induction k
  case zero      => exact .start ⟨.mailbox, rfl⟩
  case succ k ih => exact reachable_checked ih (busy_clock k)

theorem touch_batch (k : Nat) :
    (Finset.range (199 * k)).image thread ∪ (batch k).toFinset = (Finset.range (199 * (k + 1))).image thread := by
  ext t
  simp only [Finset.mem_union, Finset.mem_image, Finset.mem_range, List.mem_toFinset, batch, List.mem_map,
    List.mem_range]
  constructor
  · rintro (⟨i, hi, rfl⟩ | ⟨i, hi, rfl⟩)
    · exact ⟨i, by omega, rfl⟩
    · exact ⟨199 * k + i, by omega, rfl⟩
  · rintro ⟨i, hi, rfl⟩
    by_cases old : i < 199 * k
    · exact .inl ⟨i, old, rfl⟩
    · exact .inr ⟨i - 199 * k, by omega, by congr; omega⟩

theorem busy_touched (hk : k ≤ 10) : (busy k).guard.scope = .mailbox ∧ (busy k).guard.recentCalls.length ≤ k ∧
    (busy k).guard.touched = (Finset.range (199 * k)).image thread := by
  induction k
  case zero => exact ⟨rfl, le_rfl, rfl⟩
  case succ k ih =>
    have ⟨scope, calls, touched⟩ := ih (by omega)
    let g := (busy k).guard.expire (k * MINUTE)
    have calls : g.recentCalls.length ≤ k := ((List.dropWhile_suffix _).length_le).trans calls
    have card : g.touched.card = 199 * k := by
      have : g.touched = (Finset.range (199 * k)).image thread := touched
      rw [this, Finset.card_image_of_injective _ thread_injective, Finset.card_range]
    have listed : (g.listedNew ⟨.archive, batch k, none⟩).length ≤ 199 := by
      refine (List.length_filter_le _ _).trans ?_
      simp [batch]
    have none : g.refusal ⟨.archive, batch k, none⟩ = none := by
      have rate : ¬MAX_CALLS_PER_MINUTE ≤ g.recentCalls.length := by
        rw [MAX_CALLS_PER_MINUTE]
        omega
      have few : ¬MAX_THREADS_PER_CALL < (batch k).length := by simp [batch, MAX_THREADS_PER_CALL]
      have allowed : (batch k).any (!g.scope.allows ·) = false := by
        have : g.scope = .mailbox := scope
        simp [this, Scope.allows]
      have fits : ¬MAX_THREADS_PER_SESSION < g.touched.card + (g.listedNew ⟨.archive, batch k, Option.none⟩).length := by
        rw [MAX_THREADS_PER_SESSION, card]
        omega
      simp [SessionGuard.refusal, SessionGuard.refusedEarlier, SessionGuard.refusedForCap, SessionGuard.refusedForDraft,
        rate, few, allowed, fits, Tool.risk]
    have eq : (busy k).guard.check ⟨.archive, batch k, Option.none⟩ (k * MINUTE) =
        (g.count ⟨.archive, batch k, Option.none⟩ (k * MINUTE), .ok ()) := by
      obtain ⟨_, some, _⟩ | ⟨_, eq⟩ := (busy k).guard.check_cases ⟨.archive, batch k, Option.none⟩ (k * MINUTE)
      · exact nomatch none.symm.trans some
      · exact eq
    have touched : g.touched = (Finset.range (199 * k)).image thread := touched
    simp only [busy, State.checked, eq, SessionGuard.count]
    refine ⟨scope, by simpa using calls, ?_⟩
    rw [touched]
    exact touch_batch k

-- A thread named eleven times when ten more may be touched.
def repeated : ProposedAction := ⟨.archive, List.replicate 11 (thread 1990), none⟩

-- A session that has touched 1990 threads is refused one more because the call names it often.
theorem not_limited_repeated {s : State} (reach : sessions.Reachable (fun _ _ => True) s)
    (mono : s.clock.all (· ≤ now)) (scope : s.guard.scope = .mailbox) (calls : s.guard.recentCalls.length ≤ 10)
    (touched : s.guard.touched = (Finset.range (199 * 10)).image thread) : ¬Limited (s.checked repeated now) := by
  intro limited
  let m : Made := ⟨s.guard, s.since, repeated, now⟩
  have mem : m ∈ (s.checked repeated now).made := by
    obtain ⟨_, _, eq⟩ | ⟨_, eq⟩ := s.guard.check_cases repeated now <;>
      simp only [State.checked, eq] <;> exact List.mem_cons_self
  have since : m.since = (Finset.range (199 * 10)).image thread := (State.reachable_counted reach).since.trans touched
  have card : m.since.card = 1990 := by
    rw [since, Finset.card_image_of_injective _ thread_injective, Finset.card_range]
  have new : thread 1990 ∉ m.since := by
    rw [since]
    simp only [Finset.mem_image, Finset.mem_range, not_exists, not_and]
    intro i hi same
    have := thread_injective same
    omega
  have adds : m.adds.card ≤ 1 := by
    refine (Finset.card_le_card Finset.sdiff_subset).trans ?_
    rw [show m.action.threadIds = List.replicate 11 (thread 1990) from rfl, List.toFinset_replicate_of_ne_zero (by decide)]
    exact (Finset.card_singleton _).le
  have listed : (m.action.threadIds.filter (· ∉ m.since)).length = 11 := by
    have all : ∀ t ∈ List.replicate 11 (thread 1990), decide (t ∉ m.since) = true :=
      fun t ht => decide_eq_true (List.eq_of_mem_replicate ht ▸ new)
    rw [show m.action.threadIds = List.replicate 11 (thread 1990) from rfl, List.filter_eq_self.mpr all,
      List.length_replicate]
  have asks : m.asksForMore := by
    have calls : (s.guard.expire now).recentCalls.length ≤ 10 := ((List.dropWhile_suffix _).length_le).trans calls
    have rate : ¬MAX_CALLS_PER_MINUTE ≤ (s.guard.expire now).recentCalls.length := by
      rw [MAX_CALLS_PER_MINUTE]
      omega
    have scope : (s.guard.expire now).scope = .mailbox := scope
    have risk : repeated.tool.risk ≠ .readOnly := by decide
    refine ⟨risk, ?_⟩
    simp [m, SessionGuard.refusedEarlier, rate, repeated, Tool.risk, MAX_THREADS_PER_CALL, scope, Scope.allows]
  have fit := (Made.exact_iff ((State.reachable_counted (reachable_checked reach mono)).made m mem)).mp
    (limited.exact m mem) asks
  rw [listed, card, MAX_THREADS_PER_SESSION] at fit
  have fits : 1990 + m.adds.card ≤ 2000 := by omega
  exact absurd (fit fits) (by decide)

theorem repeats_carry_over : sessions.Reachable (fun _ _ => True) ((busy 10).checked repeated (10 * MINUTE)) ∧
    ¬Limited ((busy 10).checked repeated (10 * MINUTE)) :=
  have ⟨scope, calls, touched⟩ := busy_touched (k := 10) le_rfl
  ⟨reachable_checked (busy_reachable 10) (busy_clock 10),
    not_limited_repeated (busy_reachable 10) (busy_clock 10) scope calls touched⟩

end Busy
end Kaluta.Permissions
