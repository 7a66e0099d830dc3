import Kaluta.Consent.Form

namespace Kaluta.Consent

variable {s s' : State} {key k : Pair} {log : List Event} {failures : Failures} {now : Millis} {p : Post}

-- The wrong codes of a client from an address that were tested, and those that were counted.
def wrongs (key : Pair) (log : List Event) : Nat :=
  log.countP fun
    | .tested k _ right => k = key ∧ right = false
    | _                 => false

def counts (key : Pair) (log : List Event) : Nat :=
  log.countP fun
    | .counted k _ _ _ => k = key
    | _                => false

-- The number that was last counted.
def lastCount (key : Pair) : List Event → Nat
  | []                      => 0
  | .counted k _ n _ :: log => if k = key then n else lastCount key log
  | .tested _ _ _ :: log    => lastCount key log

@[simp]
theorem wrongs_tested : wrongs key (.tested k now right :: log) = wrongs key log + if k = key ∧ right = false then 1 else 0 := by
  simp [wrongs, List.countP_cons]

@[simp]
theorem wrongs_counted : wrongs key (.counted k came n now :: log) = wrongs key log := by
  simp [wrongs]

@[simp]
theorem counts_tested : counts key (.tested k now right :: log) = counts key log := by
  simp [counts]

@[simp]
theorem counts_counted : counts key (.counted k came n now :: log) = counts key log + if k = key then 1 else 0 := by
  simp [counts, List.countP_cons]

-- Each wrong code of a client from an address is counted before another code is tested. The counts go from one to at
-- most five, and start anew only an hour after the first. After a fifth, no code is tested for an hour.
def Limited (key : Pair) : List Event → Prop
  | []                        => True
  | .tested k now _ :: log    => Limited key log ∧ (k = key → wrongs key log = counts key log ∧
    ∀ came then_, .counted key came TRIES_PER_CLIENT then_ ∈ log → came + CLIENT_LOCK_MS ≤ now)
  | .counted k _ n now :: log => Limited key log ∧ (k = key → wrongs key log = counts key log + 1 ∧
    n ≤ TRIES_PER_CLIENT ∧ (n = lastCount key log + 1 ∨
      n = 1 ∧ ∀ came then_, .counted key came 1 then_ ∈ log → came + CLIENT_LOCK_MS ≤ now))

-- No more than one wrong code waits to be counted.
theorem Limited.wrongs_le (h : Limited key log) : wrongs key log ≤ counts key log + 1 := by
  induction log
  case nil => exact Nat.zero_le _
  case cons e log ih =>
    cases e
    case tested k now right =>
      rw [wrongs_tested, counts_tested]
      by_cases same : k = key
      case pos =>
        have balance := (h.right same).left
        split <;> omega
      case neg =>
        rw [if_neg fun h => same h.left]
        exact ih h.left
    case counted k came n now =>
      rw [wrongs_counted, counts_counted]
      exact (ih h.left).trans (Nat.add_le_add_right (Nat.le_add_right _ _) 1)

namespace Failures

theorem find?_retained (failures : Failures) (key : Pair) (now : Millis) :
    (failures.retained now).find? key = failures.find? key ∨
      (failures.retained now).find? key = none ∧ ∀ f ∈ failures.find? key, isOver now f = true := by
  rw [retained]
  split
  case isFalse => exact .inl rfl
  case isTrue =>
    cases found : failures.find? key
    case none =>
      refine .inl (Table.find?_eq_none_iff.mpr fun f hf => ?_)
      exact Table.find?_eq_none_iff.mp found f (Table.mem_delete.mp hf).left
    case some f =>
      obtain ⟨hf, hk⟩ := Table.find?_eq_some_iff.mp found
      cases ended : isOver now f
      case false => exact .inl (Table.find?_eq_some_iff.mpr ⟨Table.mem_delete.mpr ⟨hf, ended⟩, hk⟩)
      case true =>
        refine .inr ⟨Table.find?_eq_none_iff.mpr fun g hg same => ?_, fun g hg => Option.some.inj hg ▸ ended⟩
        obtain ⟨hg, live⟩ := Table.mem_delete.mp hg
        rw [Table.eq_of_key_eq hg hf (same.trans hk.symm), ended] at live
        cases live

theorem isOver_iff {f : ClientFailures} :
    isOver now f = true ↔ f.since + CLIENT_LOCK_MS ≤ now ∧ ∀ until_ ∈ f.lockedUntil, until_ ≤ now := by
  rw [isOver, Bool.not_or, Bool.and_eq_true, Bool.not_eq_true', Bool.not_eq_true', decide_eq_false_iff_not, and_comm]
  refine and_congr ?_ ?_
  · exact ⟨fun h => by have := Int.not_lt.mp h; exact Int.add_le_of_le_sub_left this, fun h => by
      exact Int.not_lt.mpr (Int.le_sub_left_of_add_le h)⟩
  · cases f.lockedUntil <;> simp

-- A wrong code either starts a count or goes on with one of less than an hour ago.
theorem counted_cases (failures : Failures) (key : Pair) (late : CLIENT_LOCK_MS ≤ now) :
    (failures.counted key now = { key, count := 1, since := now } ∧
      ∀ f ∈ failures.find? key, f.since + CLIENT_LOCK_MS ≤ now) ∨
    ∃ f ∈ failures.find? key, now < f.since + CLIENT_LOCK_MS ∧ failures.counted key now =
      { f with count := f.count + 1
               lockedUntil := if TRIES_PER_CLIENT ≤ f.count + 1 then some (now + CLIENT_LOCK_MS) else f.lockedUntil } := by
  rw [counted]
  cases found : failures.find? key
  case none =>
    refine .inl ⟨?_, nofun⟩
    simp only [Option.getD_none, Int.sub_zero, if_pos late]
    rfl
  case some f =>
    have same := (Table.find?_eq_some_iff.mp found).right
    simp only [Option.getD_some]
    by_cases old : CLIENT_LOCK_MS ≤ now - f.since
    case pos =>
      refine .inl ⟨?_, fun g hg => ?_⟩
      · simp only [if_pos old, same]
        rfl
      · obtain rfl := Option.some.inj hg
        exact Int.add_le_of_le_sub_left old
    case neg =>
      refine .inr ⟨f, rfl, Int.lt_add_of_sub_left_lt (Int.lt_of_not_ge old), ?_⟩
      simp only [if_neg old]
      split <;> rfl

end Failures

-- What is known of the count that stands for a client from an address.
structure Stands (log : List Event) (now : Millis) (f : ClientFailures) : Prop where
  pos   : 1 ≤ f.count
  le    : f.count ≤ TRIES_PER_CLIENT
  last  : lastCount f.key log = f.count
  since : f.since ≤ now
  lock  : f.lockedUntil = none ∧ f.count < TRIES_PER_CLIENT ∨ ∃ until_ ∈ f.lockedUntil, f.since + CLIENT_LOCK_MS ≤ until_
  began : ∀ came then_, .counted f.key came 1 then_ ∈ log → came = f.since ∨ came + CLIENT_LOCK_MS ≤ now
  locks : ∀ came then_, .counted f.key came TRIES_PER_CLIENT then_ ∈ log →
    f.lockedUntil = some (came + CLIENT_LOCK_MS) ∨ came + CLIENT_LOCK_MS ≤ now

-- The hours of the first and the fifth wrong codes are over.
def Over (key : Pair) (log : List Event) (now : Millis) : Prop :=
  ∀ came n then_, .counted key came n then_ ∈ log → n = 1 ∨ n = TRIES_PER_CLIENT → came + CLIENT_LOCK_MS ≤ now

-- What is known of a post that is being handled.
structure Handled (s : State) (p : Post) : Prop where
  late    : CLIENT_LOCK_MS ≤ p.now
  now     : p.now ≤ s.clock
  since   : ∀ f ∈ s.failures.find? p.key, f.since ≤ p.now
  «open»  : p.phase ≠ .taken → ∀ f ∈ s.failures.find? p.key, ∀ until_ ∈ f.lockedUntil, until_ ≤ p.now
  balance : p.phase = .wrong → wrongs p.key s.log = counts p.key s.log + 1

structure Inv (s : State) : Prop where
  late    : CLIENT_LOCK_MS ≤ s.clock
  alone   : ∀ p ∈ s.posts, ∀ q ∈ s.posts, p.key = q.key → p = q
  handled : ∀ p ∈ s.posts, Handled s p
  stands  : ∀ f ∈ s.failures, Stands s.log s.clock f
  ended    : ∀ key, s.failures.find? key = none → Over key s.log s.clock
  balance : ∀ key, (∀ p ∈ s.posts, p.key = key → p.phase ≠ .wrong) → wrongs key s.log = counts key s.log
  limited : ∀ key, Limited key s.log

theorem Over.mono (h : Over key log now) (le : now ≤ later) : Over key log later :=
  fun came n then_ mem number => (h came n then_ mem number).trans le

namespace Stands

variable {f : ClientFailures}

theorem mono (h : Stands log now f) (le : now ≤ later) : Stands log later f where
  pos   := h.pos
  le    := h.le
  last  := h.last
  since := h.since.trans le
  lock  := h.lock
  began came then_ mem := (h.began came then_ mem).imp_right le.trans'
  locks came then_ mem := (h.locks came then_ mem).imp_right le.trans'

-- When a count and its lock are over, so are all before it.
theorem over_of (h : Stands log now f) (since : f.since + CLIENT_LOCK_MS ≤ now)
    (unlocked : ∀ until_ ∈ f.lockedUntil, until_ ≤ now) : Over f.key log now := by
  rintro came n then_ mem (rfl | rfl)
  · exact (h.began came then_ mem).elim (fun eq => eq ▸ since) id
  · exact (h.locks came then_ mem).elim (fun eq => unlocked _ eq) id

-- What happens to others does not count.
theorem cons {e : Event} (h : Stands log now f) (last : lastCount f.key (e :: log) = lastCount f.key log)
    (other : ∀ came n then_, .counted f.key came n then_ ≠ e) : Stands (e :: log) now f where
  pos   := h.pos
  le    := h.le
  last  := last.trans h.last
  since := h.since
  lock  := h.lock
  began came then_ mem := h.began came then_ ((List.mem_cons.mp mem).resolve_left (other _ _ _))
  locks came then_ mem := h.locks came then_ ((List.mem_cons.mp mem).resolve_left (other _ _ _))

end Stands

theorem Over.cons {e : Event} (h : Over key log now) (other : ∀ came n then_, .counted key came n then_ ≠ e) :
    Over key (e :: log) now :=
  fun came n then_ mem => h came n then_ ((List.mem_cons.mp mem).resolve_left (other _ _ _))

theorem postIn_eq {request : RequestId} {phase : Phase} (h : s.postIn request phase = some p) :
    p ∈ s.posts ∧ p.page.request = request ∧ p.phase = phase := by
  have ⟨found, eq⟩ := Option.filter_eq_some_iff.mp h
  have ⟨mem, id⟩ := Table.find?_eq_some_iff.mp found
  exact ⟨mem, id, of_decide_eq_true eq⟩

namespace Inv

-- The pages that wait do not matter.
theorem pending (h : Inv s) (pending : Table Pending (·.request)) : Inv { s with pending } where
  late    := h.late
  alone   := h.alone
  handled p hp := ⟨(h.handled p hp).late, (h.handled p hp).now, (h.handled p hp).since, (h.handled p hp).open,
    (h.handled p hp).balance⟩
  stands  := h.stands
  ended    := h.ended
  balance := h.balance
  limited := h.limited

theorem putPending (h : Inv s) (page : Pending) : Inv (s.putPending page) := by
  rw [State.putPending]
  split <;> exact h.pending _

theorem pass (h : Inv s) (ms : Nat) : Inv { s with clock := s.clock + ms } where
  late    := h.late.trans (Int.le_add_of_nonneg_right (Int.natCast_nonneg ms))
  alone   := h.alone
  handled p hp :=
    have ⟨late, now, since, opened, balance⟩ := h.handled p hp
    ⟨late, now.trans (Int.le_add_of_nonneg_right (Int.natCast_nonneg ms)), since, opened, balance⟩
  stands f hf   := (h.stands f hf).mono (Int.le_add_of_nonneg_right (Int.natCast_nonneg ms))
  ended key none := (h.ended key none).mono (Int.le_add_of_nonneg_right (Int.natCast_nonneg ms))
  balance := h.balance
  limited := h.limited

-- A post that has its answer before its code was found wrong.
theorem answered {request : RequestId} {phase : Phase} (h : Inv s) (hp : s.postIn request phase = some p)
    (ne : phase ≠ .wrong) : Inv (s.answered request) where
  late    := h.late
  alone p hp q hq := h.alone p (Table.mem_delete.mp hp).left q (Table.mem_delete.mp hq).left
  handled q hq :=
    have ⟨late, now, since, opened, balance⟩ := h.handled q (Table.mem_delete.mp hq).left
    ⟨late, now, since, opened, balance⟩
  stands  := h.stands
  ended    := h.ended
  balance key none := h.balance key fun q hq same wrong => by
    have ⟨mem, id, is⟩ := postIn_eq hp
    by_cases eq : q.page.request = request
    case pos => exact ne (is.symm.trans (Table.eq_of_key_eq mem hq (id.trans eq.symm) ▸ wrong))
    case neg => exact none q (Table.mem_delete.mpr ⟨hq, decide_eq_false eq⟩) same wrong
  limited := h.limited

theorem alone_advance (h : Inv s) (hp : p ∈ s.posts) {phase : Phase} :
    ∀ q ∈ (s.advance p phase).posts, ∀ r ∈ (s.advance p phase).posts, q.key = r.key → q = r := by
  have other {q : Post} (hq : q ∈ s.posts) (ne : q.page.request ≠ p.page.request) : q.key ≠ p.key :=
    fun same => ne (congrArg (·.page.request) (h.alone q hq p hp same))
  intro q hq r hr same
  obtain ⟨hq, ne⟩ | rfl := Table.mem_replace.mp hq <;> obtain ⟨hr, ne'⟩ | rfl := Table.mem_replace.mp hr
  · exact h.alone q hq r hr same
  · exact absurd same (other hq ne)
  · exact absurd same.symm (other hr ne')
  · rfl

-- While a post is being handled that has not found its code wrong, all wrong codes are counted.
theorem settled (h : Inv s) (hp : p ∈ s.posts) (ne : p.phase ≠ .wrong) : wrongs p.key s.log = counts p.key s.log :=
  h.balance p.key fun q hq same wrong => ne (h.alone q hq p hp same ▸ wrong)

-- Where a post got past the lock, each lock that there was is over.
theorem unlocked (h : Inv s) (hp : p ∈ s.posts) (ne : p.phase ≠ .taken) :
    ∀ came then_, .counted p.key came TRIES_PER_CLIENT then_ ∈ s.log → came + CLIENT_LOCK_MS ≤ s.clock := by
  intro came then_ mem
  have ⟨_, now, _, opened, _⟩ := h.handled p hp
  cases found : s.failures.find? p.key
  case none => exact h.ended p.key found came _ then_ mem (.inr rfl)
  case some f =>
    have ⟨hf, key⟩ := Table.find?_eq_some_iff.mp found
    rw [← key] at mem
    exact ((h.stands f hf).locks came then_ mem).elim (fun eq => (opened ne f found _ eq).trans now) id

-- A post that reads that there is no lock.
theorem check {request : RequestId} (h : Inv s) (hp : s.postIn request .taken = some p)
    (free : s.failures.locked p.key p.now = false) : Inv (s.advance p .testing) := by
  have ⟨mem, id, taken⟩ := postIn_eq hp
  have ⟨late, now, since, _, _⟩ := h.handled p mem
  refine ⟨h.late, h.alone_advance mem, fun q hq => ?_, h.stands, h.ended, fun key none => ?_, h.limited⟩
  · obtain ⟨hq, _⟩ | rfl := Table.mem_replace.mp hq
    · have ⟨late, now, since, opened, balance⟩ := h.handled q hq
      exact ⟨late, now, since, opened, balance⟩
    · refine ⟨late, now, since, fun _ f hf until_ hu => ?_, nofun⟩
      have hf : s.failures.find? p.key = some f := hf
      rw [Failures.locked, hf, Option.bind_some, Option.mem_def.mp hu] at free
      exact Int.not_lt.mp (of_decide_eq_false free)
  · refine h.balance key fun q hq same wrong => ?_
    by_cases eq : q.page.request = p.page.request
    case pos =>
      rw [Table.eq_of_key_eq hq mem eq, taken] at wrong
      cases wrong
    case neg => exact none q (Table.mem_replace.mpr (.inl ⟨hq, eq⟩)) same wrong

-- A code that is right.
theorem right {request : RequestId} (h : Inv s) (hp : s.postIn request .testing = some p) :
    Inv { s with log := .tested p.key s.clock true :: s.log } := by
  have ⟨mem, _, testing⟩ := postIn_eq hp
  have ne : p.phase ≠ .taken ∧ p.phase ≠ .wrong := by rw [testing]; exact ⟨nofun, nofun⟩
  refine ⟨h.late, h.alone, fun q hq => ?_, fun f hf => ?_, fun key none => ?_, fun key none => ?_, fun key => ?_⟩
  · have ⟨late, now, since, opened, balance⟩ := h.handled q hq
    exact ⟨late, now, since, opened, by simpa using balance⟩
  · exact (h.stands f hf).cons rfl nofun
  · exact (h.ended key none).cons nofun
  · simpa using h.balance key none
  · exact ⟨h.limited key, fun same => same ▸ ⟨h.settled mem ne.right, h.unlocked mem ne.left⟩⟩

-- A code that is wrong, and has yet to be counted.
theorem wrong {request : RequestId} (h : Inv s) (hp : s.postIn request .testing = some p) :
    Inv ({ s with log := .tested p.key s.clock false :: s.log }.advance p .wrong) := by
  have ⟨mem, _, testing⟩ := postIn_eq hp
  have ne : p.phase ≠ .taken ∧ p.phase ≠ .wrong := by rw [testing]; exact ⟨nofun, nofun⟩
  have ⟨late, now, since, opened, _⟩ := h.handled p mem
  refine ⟨h.late, h.alone_advance mem, fun q hq => ?_, fun f hf => ?_, fun key none => ?_, fun key none => ?_, fun key => ?_⟩
  · obtain ⟨hq, id⟩ | rfl := Table.mem_replace.mp hq
    · have ⟨late, now, since, opened, balance⟩ := h.handled q hq
      have other : p.key ≠ q.key := fun same => id (congrArg (·.page.request) (h.alone q hq p mem same.symm))
      exact ⟨late, now, since, opened, by simpa [State.advance, other] using balance⟩
    · refine ⟨late, now, since, fun _ => opened ne.left, fun _ => ?_⟩
      have := h.settled mem ne.right
      simpa [State.advance, Post.key] using this
  · exact (h.stands f hf).cons rfl nofun
  · exact (h.ended key none).cons nofun
  · have other : p.key ≠ key := fun same => none _ (Table.mem_replace.mpr (.inr rfl)) same rfl
    have := h.balance key fun q hq same => none q (Table.mem_replace.mpr (.inl ⟨hq, fun id =>
      other ((congrArg Post.key (Table.eq_of_key_eq hq mem id)).symm.trans same)⟩)) same
    simpa [State.advance, other] using this
  · exact ⟨h.limited key, fun same => same ▸ ⟨h.settled mem ne.right, h.unlocked mem ne.left⟩⟩

-- What stands for a client from an address after one more wrong code.
theorem counted {request : RequestId} (h : Inv s) (hp : s.postIn request .wrong = some p) {f : ClientFailures}
    (hf : (s.failures.retained p.now).counted p.key p.now = f) :
    f.key = p.key ∧ Stands (.counted p.key p.now f.count s.clock :: s.log) s.clock f ∧
      (f.count = lastCount p.key s.log + 1 ∨
        f.count = 1 ∧ ∀ came then_, .counted p.key came 1 then_ ∈ s.log → came + CLIENT_LOCK_MS ≤ s.clock) := by
  have ⟨mem, _, wrong⟩ := postIn_eq hp
  have ne : p.phase ≠ .taken := by rw [wrong]; exact nofun
  have ⟨late, now, since, opened, _⟩ := h.handled p mem
  have retained := Failures.find?_retained s.failures p.key p.now
  have locks := h.unlocked mem ne
  obtain ⟨eq, old⟩ | ⟨g, hg, young, eq⟩ := Failures.counted_cases (s.failures.retained p.now) p.key late <;> rw [eq] at hf
  case inl =>
    subst hf
    have began : ∀ came then_, .counted p.key came 1 then_ ∈ s.log → came + CLIENT_LOCK_MS ≤ s.clock := by
      intro came then_ began
      cases found : s.failures.find? p.key
      case none => exact h.ended p.key found came 1 then_ began (.inl rfl)
      case some g =>
        have ⟨hg, key⟩ := Table.find?_eq_some_iff.mp found
        have ended : g.since + CLIENT_LOCK_MS ≤ p.now := by
          obtain same | ⟨_, evicted⟩ := retained
          · exact old g (same.trans found)
          · exact (Failures.isOver_iff.mp (evicted g found)).left
        rw [← key] at began
        exact ((h.stands g hg).began came then_ began).elim (fun eq => eq ▸ ended.trans now) id
    refine ⟨rfl, ⟨le_rfl, Nat.le_of_ble_eq_true rfl, by simp [lastCount], now, .inl ⟨rfl, Nat.le_of_ble_eq_true rfl⟩, fun came then_ h => ?_, fun came then_ h => ?_⟩,
      .inr ⟨rfl, began⟩⟩
    · obtain h | h := List.mem_cons.mp h
      · cases h
        exact .inl rfl
      · exact .inr (began came then_ h)
    · obtain h | h := List.mem_cons.mp h
      · cases h
      · exact .inr (locks came then_ h)
  case inr =>
    have found : s.failures.find? p.key = some g := by
      obtain same | ⟨none, _⟩ := retained
      · exact same.symm.trans hg
      · cases none.symm.trans hg
    have ⟨mem_g, key⟩ := Table.find?_eq_some_iff.mp found
    have ⟨pos, le, last, since_le, lock, began, _⟩ := h.stands g mem_g
    -- A lock would be over, and the count an hour old.
    obtain ⟨none, fewer⟩ | ⟨until_, hu, long⟩ := lock
    case inr => exact absurd (long.trans (opened ne g found until_ hu)) (Int.not_le.mpr young)
    rw [key] at last began
    subst hf
    refine ⟨key, ⟨Nat.le_add_left 1 _, fewer, if_pos key.symm, since_le, ?_, fun came then_ h => ?_, fun came then_ h => ?_⟩,
      .inl (congrArg (· + 1) last.symm)⟩
    · dsimp only
      split
      case isTrue  => exact .inr ⟨_, rfl, Int.add_le_add_right (since g found) _⟩
      case isFalse => exact .inl ⟨none, by omega⟩
    · rw [key] at h
      obtain h | h := List.mem_cons.mp h
      · have number : 1 = g.count + 1 := (Event.counted.inj h).right.right.left
        omega
      · exact began came then_ h
    · rw [key] at h
      obtain h | h := List.mem_cons.mp h
      · obtain ⟨_, came_eq, number, _⟩ := Event.counted.inj h
        exact .inl ((if_pos number.le).trans (came_eq ▸ rfl))
      · exact .inr (locks came then_ h)

-- A wrong code that is counted.
theorem count {request : RequestId} (h : Inv s) (hp : s.postIn request .wrong = some p) {failures : Failures}
    {f : ClientFailures} (hf : s.failures.countFailure p.key p.now = (failures, f)) :
    Inv { s.answered request with failures, log := .counted p.key p.now f.count s.clock :: s.log } := by
  have ⟨mem, id, wrong⟩ := postIn_eq hp
  have ⟨late, now, since, opened, balance⟩ := h.handled p mem
  obtain ⟨rfl, eq⟩ := Prod.mk.inj hf
  have ⟨key, stands, number⟩ := h.counted hp eq
  rw [eq] at hf ⊢
  -- What stands for another is as it was, or over and gone.
  have other {k : Pair} (ne : k ≠ p.key) :
      ((s.failures.retained p.now).replace f).find? k = (s.failures.retained p.now).find? k := by
    rw [Table.find?_replace, key, if_neg ne]
  have kept {k : Pair} {g : ClientFailures} (ne : k ≠ p.key)
      (hg : ((s.failures.retained p.now).replace f).find? k = some g) : s.failures.find? k = some g := by
    rw [other ne] at hg
    obtain same | ⟨none, _⟩ := Failures.find?_retained s.failures k p.now
    · exact same.symm.trans hg
    · cases none.symm.trans hg
  have left {q : Post} (hq : q ∈ (s.answered request).posts) : q ∈ s.posts ∧ q.key ≠ p.key := by
    have ⟨hq, ne⟩ := Table.mem_delete.mp hq
    exact ⟨hq, fun same => of_decide_eq_false ne (h.alone q hq p mem same ▸ id)⟩
  refine ⟨h.late, fun q hq r hr => h.alone q (left hq).left r (left hr).left, fun q hq => ?_, fun g hg => ?_, fun k none => ?_,
    fun k none => ?_, fun k => ?_⟩
  · have ⟨mem_q, ne⟩ := left hq
    have ⟨late, now, since, opened, balance⟩ := h.handled q mem_q
    exact ⟨late, now, fun g hg => since g (kept ne hg), fun ph g hg => opened ph g (kept ne hg), by simpa [Ne.symm ne] using balance⟩
  · by_cases same : g.key = p.key
    case pos =>
      have : g = f := Table.eq_of_key_eq hg (Table.mem_replace.mpr (.inr rfl)) (same.trans key.symm)
      exact this ▸ stands
    case neg =>
      have found := kept same (Table.find?_key hg)
      refine (h.stands g (Table.find?_mem found)).cons (if_neg (Ne.symm same)) fun came n then_ eq => ?_
      exact same (Event.counted.inj eq).left
  · have ne : k ≠ p.key := fun same => by
      rw [Table.find?_replace, key, if_pos same] at none
      cases none
    rw [other ne] at none
    refine Over.cons ?_ fun came n then_ eq => ne (Event.counted.inj eq).left
    obtain same | ⟨_, evicted⟩ := Failures.find?_retained s.failures k p.now
    · exact h.ended k (same.symm.trans none)
    · cases found : s.failures.find? k
      case none => exact h.ended k found
      case some g =>
        have ⟨hg, key⟩ := Table.find?_eq_some_iff.mp found
        have ⟨old, unlocked⟩ := Failures.isOver_iff.mp (evicted g found)
        exact key ▸ (h.stands g hg).over_of (old.trans now) fun until_ hu => (unlocked until_ hu).trans now
  · by_cases same : p.key = k
    case pos =>
      subst same
      simpa using balance wrong
    case neg =>
      have := h.balance k fun q hq keyed is => by
        by_cases eq : q.page.request = request
        case pos => exact same (Table.eq_of_key_eq mem hq (id.trans eq.symm) ▸ keyed)
        case neg => exact none q (Table.mem_delete.mpr ⟨hq, decide_eq_false eq⟩) keyed is
      simpa [same] using this
  · refine ⟨h.limited k, fun same => ?_⟩
    subst same
    exact ⟨balance wrong, stands.le, number⟩

theorem post (h : Inv s) {page : Pending} {address : Address} {posts : Table Post (·.page.request)}
    (apart : ∀ p ∈ s.posts, p.key ≠ (page.clientId, address))
    (hs : s.posts.insert? { page, address, now := s.clock } = some posts) : Inv { s with posts } := by
  refine ⟨h.late, fun q hq r hr same => ?_, fun q hq => ?_, h.stands, h.ended, fun key none => ?_, h.limited⟩
  · obtain hq | rfl := (Table.mem_insert? hs).mp hq <;> obtain hr | rfl := (Table.mem_insert? hs).mp hr
    · exact h.alone q hq r hr same
    · exact absurd same (apart q hq)
    · exact absurd same.symm (apart r hr)
    · rfl
  · obtain hq | rfl := (Table.mem_insert? hs).mp hq
    · have ⟨late, now, since, opened, balance⟩ := h.handled q hq
      exact ⟨late, now, since, opened, balance⟩
    · exact ⟨h.late, le_rfl, fun f hf => (h.stands f (Table.find?_mem hf)).since, fun ne => absurd rfl ne, nofun⟩
  · exact h.balance key fun q hq => none q ((Table.mem_insert? hs).mpr (.inl hq))

theorem step {a : Action} (h : Inv s) (apart : Apart s a) (hs : s.step a = some s') : Inv s' := by
  cases a
  case pass ms =>
    cases hs
    exact h.pass ms
  case authorize request clientId =>
    cases hs
    exact h.putPending _
  case post request address fromPage deny =>
    rw [State.step] at hs
    split at hs
    case h_1 => cases hs; exact h
    case h_2 page found =>
      dsimp only at hs
      split at hs
      case isTrue => cases hs; exact h.pending _
      case isFalse =>
        obtain ⟨posts, insert, rfl⟩ := Option.map_eq_some_iff.mp hs
        exact (h.pending (s.pending.delete (·.request = request))).post (apart page found) insert
  case check request busy =>
    obtain ⟨p, hp, hs⟩ := Option.bind_eq_some_iff.mp hs
    split at hs
    case isTrue => cases hs; exact h.answered hp nofun
    case isFalse free =>
      split at hs
      case isTrue  => cases hs; exact (h.answered hp nofun).putPending _
      case isFalse => cases hs; exact h.check hp (Bool.eq_false_iff.mpr free)
  case test request right =>
    obtain ⟨p, hp, hs⟩ := Option.bind_eq_some_iff.mp hs
    rcases right with _ | _ | _
    case none       => cases hs; exact h.answered hp nofun
    case some.false => cases hs; exact h.wrong hp
    case some.true  => cases hs; exact (h.right hp).answered hp nofun
  case count request =>
    obtain ⟨p, hp, hs⟩ := Option.bind_eq_some_iff.mp hs
    dsimp only at hs
    have counted := h.count hp rfl
    split at hs
    case isTrue  => cases hs; exact counted
    case isFalse => cases hs; exact counted.putPending _

end Inv

-- In every run in which posts of one client and address come one after another, and those of others whenever they like.
-- Posts of one pair that overlap may all find it unlocked.
theorem reachable_limited (h : server.Reachable Apart s) (key : Pair) : Limited key s.log := by
  refine (h.invariant (P := Inv) (fun s start => ?_) fun s a s' h apart hs => h.step apart hs).limited key
  obtain ⟨late, _, failures, posts, log⟩ := start
  have no_posts : ∀ p, p ∉ s.posts := fun p hp => by
    rw [← Table.mem_rows, posts] at hp
    cases hp
  refine ⟨late, fun p hp => absurd hp (no_posts p), fun p hp => absurd hp (no_posts p), fun f hf => ?_, fun key _ => ?_,
    fun key _ => ?_, fun key => ?_⟩
  · rw [← Table.mem_rows, failures] at hf
    cases hf
  · rw [log]
    exact nofun
  · rw [log]
    rfl
  · rw [log]
    trivial

section Runs

instance (s : State) (a : Action) : Decidable (Apart s a) :=
  match a with
  | .post request address _ _ => inferInstanceAs (Decidable (∀ page ∈ s.pending.find? request, ∀ p ∈ s.posts.rows,
      p.key ≠ (page.clientId, address)))
  | .pass _ | .authorize _ _ | .check _ _ | .test _ _ | .count _ => isTrue trivial

def started : State where
  clock := CLIENT_LOCK_MS

theorem started_start : server.Start started :=
  ⟨le_rfl, rfl, rfl, rfl, rfl⟩

def connector : Pair :=
  ("connector", "192.0.2.1")

-- Wrong codes on a page of the connector's, one after another.
def tries (request : RequestId) (n : Nat) : List Action :=
  .authorize request connector.1 :: (List.replicate n
    [.post request connector.2 true false, .check request false, .test request (some false), .count request]).flatten

-- Five wrong codes, and a sixth try on another page.
def fiveWrong : List Action :=
  tries "page" 5 ++ [.authorize "other" connector.1, .post "other" connector.2 true false, .check "other" false]

theorem limited_fiveWrong : ∃ s, server.run Apart started fiveWrong = some s ∧ Limited connector s.log ∧
    wrongs connector s.log = 5 ∧ s.posts.rows.length = 0 := by
  have ends : (server.run Apart started fiveWrong).any
      (fun s => wrongs connector s.log = 5 ∧ s.posts.rows.length = 0) = true := by decide
  obtain ⟨s, hs, is⟩ := (Option.any_eq_true _ _).mp ends
  have reach := System.Reachable.run (.start started_start) hs
  exact ⟨s, hs, reachable_limited reach connector, of_decide_eq_true is⟩

-- Pages of the connector's whose codes are all tested before the first of them is counted.
def pages : List RequestId :=
  ["one", "two", "three", "four", "five", "six"]

def sixAtOnce : List Action :=
  pages.map (.authorize · connector.1) ++ pages.map (.post · connector.2 true false) ++
    pages.map (.check · false) ++ pages.map (.test · (some false))

theorem sixAtOnce_tested : ∃ s, server.Reachable (fun _ _ => True) s ∧ TRIES_PER_CLIENT < wrongs connector s.log ∧
    s.failures.locked connector s.clock = false ∧ ¬Limited connector s.log := by
  have ends : (server.run (fun _ _ => True) started sixAtOnce).any (fun s => wrongs connector s.log = 6 ∧
      counts connector s.log = 0 ∧ s.failures.locked connector s.clock = false) = true := by decide
  obtain ⟨s, hs, is⟩ := (Option.any_eq_true _ _).mp ends
  obtain ⟨six, none, free⟩ := of_decide_eq_true is
  refine ⟨s, .run (.start started_start) hs, Nat.lt_of_lt_of_eq (by decide) six.symm, free, fun limited => ?_⟩
  have le := limited.wrongs_le
  rw [six, none] at le
  exact absurd le (by decide)

end Runs

end Kaluta.Consent
