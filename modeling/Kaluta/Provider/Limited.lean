import Kaluta.Provider.RateLimiter
import Mathlib.Algebra.BigOperators.Group.List.Basic
import Mathlib.Tactic.Linarith
import Mathlib.Tactic.NormNum
import Mathlib.Tactic.Positivity

-- What a limiter keeps to over any run, as long as each pause that the provider asks for ends at an instant.
namespace Kaluta.Provider

namespace Entry

-- The units that are granted from one time to another, both included.
def unitsIn (t u : Instant) : Entry → ℚ
  | granted at' units _ _ => if t ≤ at' ∧ at' ≤ u then units else 0
  | _                     => 0

-- The later of two entries is no grant, and the rate is not lowered there, before the pause of the earlier is over.
def Waits : Entry → Entry → Prop
  | granted at' _ _ _, paused t pause => t + pause ≤ at'
  | slowed at'       , paused t pause => t + pause ≤ at'
  | _                , _              => True

-- The end of the pause is an instant.
def Fits : Entry → Prop
  | paused t pause => t + pause < INSTANT_END
  | _              => True

instance : DecidablePred Fits
  | paused _ _      => inferInstanceAs (Decidable (_ < _))
  | granted _ _ _ _ => inferInstanceAs (Decidable True)
  | slowed _        => inferInstanceAs (Decidable True)

end Entry

def Limiting.granted (s : Limiting) (t u : Instant) : ℚ :=
  (s.log.map (Entry.unitsIn t u)).sum

-- What the limiter is for.
structure Limited (l : RateLimiter) (s : Limiting) : Prop where
  -- In any interval.
  budget  : ∀ t u, t ≤ u → s.granted t u ≤ l.capacity + l.nominalRefillPerSec * (u - t)
  -- Nothing is granted during a cooldown, and one cooldown lowers the rate once.
  waits   : s.log.Pairwise Entry.Waits
  reserve : ∀ {at' units left}, .granted at' units .background left ∈ s.log → l.reserve ≤ left
  rate    : l.nominalRefillPerSec * FLOOR ≤ s.bucket.refillPerSec ∧ s.bucket.refillPerSec ≤ l.nominalRefillPerSec
  panics  : s.panics = 0

-- What a bucket keeps to whatever happens to it.
structure Bucket.Sound (s : Bucket) (l : RateLimiter) : Prop where
  nonneg   : 0 ≤ s.tokens
  le       : s.tokens ≤ l.capacity
  floor_le : l.nominalRefillPerSec * FLOOR ≤ s.refillPerSec
  rate_le  : s.refillPerSec ≤ l.nominalRefillPerSec

namespace RateLimiter

variable {l : RateLimiter} {s : Bucket} {now : Instant}

theorem nominal_nonneg (l : RateLimiter) : 0 ≤ l.nominalRefillPerSec := by
  rw [l.nominal_eq]
  exact div_nonneg l.capacity_nonneg (by norm_num)

theorem floor_nonneg (l : RateLimiter) (priority : Priority) : 0 ≤ l.floor priority := by
  cases priority
  case interactive => exact le_rfl
  case background  => exact l.reserve_nonneg

theorem floor_le_capacity (l : RateLimiter) (priority : Priority) : l.floor priority ≤ l.capacity := by
  cases priority
  case interactive => exact l.capacity_nonneg
  case background  => exact l.reserve_le

theorem rate_nonneg (h : s.Sound l) : 0 ≤ s.refillPerSec :=
  (mul_nonneg l.nominal_nonneg (by norm_num [FLOOR])).trans h.floor_le

-- Recovering only raises the rate.
theorem recover_spec (now : Instant) (h : s.Sound l) : (l.recover s now).Sound l ∧ (l.recover s now).tokens = s.tokens ∧
    (l.recover s now).last = s.last ∧ (l.recover s now).cooldownUntil = s.cooldownUntil ∧
    s.refillPerSec ≤ (l.recover s now).refillPerSec := by
  rw [recover]
  split
  case isFalse => exact ⟨h, rfl, rfl, rfl, le_rfl⟩
  case isTrue =>
    have raised : s.refillPerSec ≤ min (s.refillPerSec * INCREASE) l.nominalRefillPerSec := by
      refine le_min ?_ h.rate_le
      have := rate_nonneg h
      norm_num [INCREASE]
      linarith
    exact ⟨⟨h.nonneg, h.le, h.floor_le.trans raised, min_le_right ..⟩, rfl, rfl, rfl, raised⟩

theorem settled_spec (h : s.Sound l) (later : s.last ≤ now) : (l.settled s now).Sound l ∧
    (l.settled s now).last = now ∧ (l.settled s now).cooldownUntil = none ∧
    s.refillPerSec ≤ (l.settled s now).refillPerSec ∧
    (l.settled s now).tokens ≤ s.tokens + l.nominalRefillPerSec * (now - s.last) := by
  let t : Bucket := { s with cooldownUntil := none }
  have sound : t.Sound l := ⟨h.nonneg, h.le, h.floor_le, h.rate_le⟩
  obtain ⟨sound, tokens, last, cooldown, raised⟩ := recover_spec now sound
  have elapsed : max 0 (now - s.last) = now - s.last := max_eq_right (sub_nonneg.mpr later)
  have gained : (l.recover t now).tokens + max 0 (now - (l.recover t now).last) * (l.recover t now).refillPerSec =
      s.tokens + (now - s.last) * (l.recover t now).refillPerSec := by rw [tokens, last, elapsed]
  have least := mul_nonneg (sub_nonneg.mpr later) (rate_nonneg sound)
  have most := mul_le_mul_of_nonneg_left sound.rate_le (sub_nonneg.mpr later)
  refine ⟨⟨?_, min_le_right .., sound.floor_le, sound.rate_le⟩, rfl, cooldown, raised, ?_⟩
  · exact le_min (by rw [gained]; exact add_nonneg h.nonneg least) l.capacity_nonneg
  · refine (min_le_left ..).trans (gained.trans_le ?_)
    rw [mul_comm l.nominalRefillPerSec]
    exact add_le_add_right most _

-- A caller that finds too few units can sleep until there are enough.
theorem wait_fits (h : s.Sound l) {cost : ℚ} {priority : Priority} (cost_le : cost ≤ l.capacity)
    (few : ¬l.floor priority ≤ s.tokens - cost) :
    s.refillPerSec ≠ 0 ∧ 0 ≤ (cost + l.floor priority - s.tokens) / s.refillPerSec ∧
    (cost + l.floor priority - s.tokens) / s.refillPerSec < DURATION_END := by
  have few := not_le.mp few
  have deficit : 0 < cost + l.floor priority - s.tokens := by linarith
  have some' : 0 < l.capacity := by
    have := l.floor_le_capacity priority
    have := h.nonneg
    linarith
  have rate : l.capacity / 300 ≤ s.refillPerSec := by
    have := h.floor_le
    rw [l.nominal_eq] at this
    norm_num [FLOOR] at this
    linarith
  have pos : 0 < s.refillPerSec := by linarith
  refine ⟨pos.ne', div_nonneg deficit.le pos.le, ?_⟩
  rw [div_lt_iff₀ pos, DURATION_END]
  have := l.floor_le_capacity priority
  have := h.nonneg
  norm_num
  linarith

-- What a turn comes to; none panics.
theorem attempt_cases (h : s.Sound l) (later : s.last ≤ now) (cost : Nat) (priority : Priority) :
    (∃ wait, l.attempt s now cost priority = (s, .sleeps wait)) ∨
    ¬s.cools now ∧ ((∃ wait, l.attempt s now cost priority = (l.settled s now, .sleeps wait)) ∨
      ∃ units, 0 ≤ units ∧ l.floor priority ≤ (l.settled s now).tokens - units ∧
        l.attempt s now cost priority =
          ({ l.settled s now with tokens := (l.settled s now).tokens - units }, .granted units)) := by
  have nonneg : (0 : ℚ) ≤ min (cost : ℚ) l.capacity := le_min (Nat.cast_nonneg _) l.capacity_nonneg
  by_cases cools : s.cools now
  case pos => exact .inl ⟨_, by rw [attempt, if_pos cools]⟩
  case neg =>
    refine .inr ⟨cools, ?_⟩
    by_cases few : l.floor priority ≤ (l.settled s now).tokens - min (cost : ℚ) l.capacity
    case pos => exact .inr ⟨_, nonneg, few, by rw [attempt, if_neg cools, if_pos few]⟩
    case neg =>
      have fits := wait_fits (settled_spec h later).left (min_le_right ..) few
      exact .inl ⟨_, by rw [attempt, if_neg cools, if_neg few, if_pos fits]⟩

-- What a report comes to: only one that finds no cooldown changes the rate.
theorem report_spec (now : Instant) (h : s.Sound l) (retryAfter : Option Duration) :
    let b := (l.reportRateLimited s now retryAfter).1
    b.Sound l ∧ b.tokens = 0 ∧ b.last = now ∧ (s.cools now → b.refillPerSec = s.refillPerSec) ∧
    (∀ c, s.cooldownUntil = some c → ∃ c', b.cooldownUntil = some c' ∧ c ≤ c') ∧
    (now + retryAfter.getD DEFAULT_COOLDOWN < INSTANT_END →
      ∃ c, b.cooldownUntil = some c ∧ now + retryAfter.getD DEFAULT_COOLDOWN ≤ c) ∧
    ((l.reportRateLimited s now retryAfter).2 = true ↔ INSTANT_END ≤ now + retryAfter.getD DEFAULT_COOLDOWN) := by
  have drained : ({ s with tokens := 0, last := now } : Bucket).Sound l :=
    ⟨le_rfl, l.capacity_nonneg, h.floor_le, h.rate_le⟩
  rw [reportRateLimited]
  dsimp only
  split
  case isTrue late =>
    exact ⟨drained, rfl, rfl, fun _ => rfl, fun c hc => ⟨c, hc, le_rfl⟩, fun fits => absurd late (not_le.mpr fits),
      iff_of_true rfl late⟩
  case isFalse fits =>
    have extends_ : ∀ c, s.cooldownUntil = some c → ∃ c', some (s.cooldownUntil.elim
        (now + retryAfter.getD DEFAULT_COOLDOWN) (max · (now + retryAfter.getD DEFAULT_COOLDOWN))) = some c' ∧ c ≤ c' :=
      fun c hc => ⟨_, rfl, by rw [hc]; exact le_max_left ..⟩
    have covers : now + retryAfter.getD DEFAULT_COOLDOWN ≤ s.cooldownUntil.elim
        (now + retryAfter.getD DEFAULT_COOLDOWN) (max · (now + retryAfter.getD DEFAULT_COOLDOWN)) := by
      cases s.cooldownUntil
      case none   => exact le_rfl
      case some c => exact le_max_right ..
    split
    case isTrue =>
      exact ⟨⟨le_rfl, l.capacity_nonneg, h.floor_le, h.rate_le⟩, rfl, rfl, fun _ => rfl, extends_,
        fun _ => ⟨_, rfl, covers⟩, iff_of_false Bool.false_ne_true fits⟩
    case isFalse free =>
      have lower : max (s.refillPerSec * DECREASE) (l.nominalRefillPerSec * FLOOR) ≤ l.nominalRefillPerSec := by
        have := l.nominal_nonneg
        have := rate_nonneg h
        have := h.rate_le
        refine max_le ?_ ?_ <;> norm_num [DECREASE, FLOOR] <;> linarith
      exact ⟨⟨le_rfl, l.capacity_nonneg, le_max_right .., lower⟩, rfl, rfl, fun cools => absurd cools free, extends_,
        fun _ => ⟨_, rfl, covers⟩, iff_of_false Bool.false_ne_true fits⟩

end RateLimiter

namespace Limiting

-- What holds over a run, of what has been granted and of the pauses that could be set.
structure Inv (l : RateLimiter) (s : Limiting) : Prop where
  sound     : s.bucket.Sound l
  last      : s.bucket.last ≤ s.clock
  past      : ∀ {at' units priority left}, .granted at' units priority left ∈ s.log → at' ≤ s.bucket.last
  -- What was granted since a time, with what is left, is at most what the bucket held and was filled with.
  potential : ∀ t ≤ s.bucket.last,
    s.granted t s.bucket.last + s.bucket.tokens ≤ l.capacity + l.nominalRefillPerSec * (s.bucket.last - t)
  budget    : ∀ t u, t ≤ u → s.granted t u ≤ l.capacity + l.nominalRefillPerSec * (u - t)
  waits     : s.log.Pairwise fun e e' => e'.Fits → e.Waits e'
  reserve   : ∀ {at' units left}, .granted at' units .background left ∈ s.log → l.reserve ≤ left
  cooling   : ∀ {t pause}, .paused t pause ∈ s.log → t + pause < INSTANT_END →
    t + pause ≤ s.clock ∨ ∃ c, s.bucket.cooldownUntil = some c ∧ t + pause ≤ c
  panics    : s.panics = s.log.countP (¬Entry.Fits ·)

namespace Inv

variable {l : RateLimiter} {s s' : Limiting} {now : Instant}

theorem granted_cons (s : Limiting) (e : Entry) (t u : Instant) :
    ({ s with log := e :: s.log } : Limiting).granted t u = e.unitsIn t u + s.granted t u :=
  List.sum_cons

-- Nothing has been granted after the bucket was filled last.
theorem granted_later (h : Inv l s) (le : s.bucket.last ≤ u) : s.granted t u = s.granted t s.bucket.last := by
  rw [granted, granted]
  congr 1
  refine List.map_congr_left fun e mem => ?_
  cases e
  case granted at' _ _ _ =>
    have := h.past mem
    simp only [Entry.unitsIn, this, this.trans le, and_true]
  all_goals rfl

theorem granted_none (h : Inv l s) (lt : s.bucket.last < t) : s.granted t u = 0 := by
  refine List.sum_eq_zero fun x mem => ?_
  obtain ⟨e, here, rfl⟩ := List.mem_map.mp mem
  cases e
  case granted at' _ _ _ => exact if_neg fun within => absurd within.left (not_le.mpr ((h.past here).trans_lt lt))
  all_goals rfl

-- Where no cooldown holds up callers, each pause that could be set is over.
theorem ended (h : Inv l s) (mono : s.clock ≤ now) (free : ¬s.bucket.cools now) (mem : .paused t pause ∈ s.log)
    (fits : t + pause < INSTANT_END) : t + pause ≤ now := by
  rcases h.cooling mem fits with past | ⟨c, eq, le⟩
  · exact past.trans mono
  · rw [Bucket.cools, eq] at free
    exact le.trans (by simpa using free)

theorem waits_cons (h : Inv l s) {e : Entry}
    (waits : ∀ t pause, .paused t pause ∈ s.log → t + pause < INSTANT_END → e.Waits (.paused t pause)) :
    (e :: s.log).Pairwise fun e e' => e'.Fits → e.Waits e' := by
  refine List.pairwise_cons.mpr ⟨fun e' mem fits => ?_, h.waits⟩
  cases e'
  case paused t pause => exact waits t pause mem fits
  all_goals cases e <;> trivial

-- A bucket is filled no faster than at the nominal rate, and slowed down only where no cooldown is on.
theorem turns (h : Inv l s) (mono : s.clock ≤ now) {bucket : Bucket} (sound : bucket.Sound l) (last : bucket.last = now)
    (tokens : bucket.tokens ≤ s.bucket.tokens + l.nominalRefillPerSec * (now - s.bucket.last))
    (slows : s.bucket.cools now → s.bucket.refillPerSec ≤ bucket.refillPerSec)
    (cooldown : ∀ c, s.bucket.cooldownUntil = some c → c ≤ now ∨ ∃ c', bucket.cooldownUntil = some c' ∧ c ≤ c') :
    Inv l (s.turns now bucket) := by
  have later : s.bucket.last ≤ now := h.last.trans mono
  have granted (t u : Instant) : (s.turns now bucket).granted t u = s.granted t u := by
    rw [Limiting.granted, Limiting.turns]
    dsimp only
    split
    case isFalse => rfl
    case isTrue  => exact (granted_cons s (.slowed now) t u).trans (zero_add _)
  have log : ∀ e ∈ (s.turns now bucket).log, e = .slowed now ∨ e ∈ s.log := by
    intro e mem
    rw [Limiting.turns] at mem
    dsimp only at mem
    split at mem
    case isFalse => exact .inr mem
    case isTrue  => exact List.mem_cons.mp mem
  refine ⟨sound, last.le, fun mem => ?_, fun t le => ?_, fun t u le => ?_, ?_, fun mem => ?_, fun mem fits => ?_, ?_⟩
  · rcases log _ mem with eq | mem
    · cases eq
    · exact ((h.past mem).trans later).trans last.ge
  · change t ≤ bucket.last at le
    change (s.turns now bucket).granted t bucket.last + bucket.tokens ≤ _ + _ * (bucket.last - t)
    rw [last] at le
    rw [granted, last]
    rcases le_or_gt t s.bucket.last with old | new
    · rw [h.granted_later later]
      have := h.potential t old
      linarith
    · rw [h.granted_none new]
      have := sound.le
      have := mul_nonneg l.nominal_nonneg (sub_nonneg.mpr le)
      linarith
  · rw [granted]
    exact h.budget t u le
  · rw [Limiting.turns]
    dsimp only
    split
    case isFalse     => exact h.waits
    case isTrue slow =>
      have free : ¬s.bucket.cools now := fun cools => absurd slow (not_lt.mpr (slows cools))
      exact h.waits_cons fun t pause mem fits => h.ended mono free mem fits
  · rcases log _ mem with eq | mem
    · cases eq
    · exact h.reserve mem
  · rcases log _ mem with eq | mem
    · cases eq
    · rcases h.cooling mem fits with past | ⟨c, eq, le⟩
      · exact .inl (past.trans mono)
      · rcases cooldown c eq with ended | ⟨c', eq, le'⟩
        · exact .inl (le.trans ended)
        · exact .inr ⟨c', eq, le.trans le'⟩
  · rw [Limiting.turns]
    dsimp only
    split
    case isFalse => exact h.panics
    case isTrue  => exact h.panics.trans (List.countP_cons_of_neg (by simp [Entry.Fits])).symm

theorem settle (h : Inv l s) (mono : s.clock ≤ now) (free : ¬s.bucket.cools now) :
    Inv l (s.turns now (l.settled s.bucket now)) := by
  obtain ⟨sound, last, _, raised, tokens⟩ := RateLimiter.settled_spec h.sound (h.last.trans mono)
  refine h.turns mono sound last tokens (fun _ => raised) fun c eq => .inl ?_
  rw [Bucket.cools, eq] at free
  simpa using free

theorem same (h : Inv l s) (mono : s.clock ≤ now) : Inv l { s with clock := now } :=
  { h with
    last    := h.last.trans mono
    cooling := fun mem fits => (h.cooling mem fits).imp_left (·.trans mono) }

-- Units leave the bucket as they are granted.
theorem grant (h : Inv l s) (last : s.bucket.last = now) (nonneg : 0 ≤ units)
    (enough : l.floor priority ≤ s.bucket.tokens - units)
    (free : ∀ t pause, .paused t pause ∈ s.log → t + pause < INSTANT_END → t + pause ≤ now) :
    Inv l { s with
      bucket := { s.bucket with tokens := s.bucket.tokens - units }
      log    := .granted now units priority (s.bucket.tokens - units) :: s.log } := by
  let e : Entry := .granted now units priority (s.bucket.tokens - units)
  have left : 0 ≤ s.bucket.tokens - units := (l.floor_nonneg priority).trans enough
  have sound : ({ s.bucket with tokens := s.bucket.tokens - units } : Bucket).Sound l :=
    ⟨left, (sub_le_self _ nonneg).trans h.sound.le, h.sound.floor_le, h.sound.rate_le⟩
  refine ⟨sound, h.last, fun mem => ?_, fun t le => ?_, fun t u le => ?_, h.waits_cons free, fun mem => ?_,
    fun mem fits => ?_, h.panics.trans (List.countP_cons_of_neg (by simp [Entry.Fits])).symm⟩
  · rcases List.mem_cons.mp mem with eq | mem
    · cases eq
      exact last.ge
    · exact h.past mem
  · have potential := h.potential t le
    have units' : e.unitsIn t s.bucket.last = units := if_pos ⟨last ▸ le, last.ge⟩
    have total := granted_cons s e t s.bucket.last
    rw [units'] at total
    change ({ s with log := e :: s.log } : Limiting).granted t s.bucket.last + (s.bucket.tokens - units) ≤ _
    change _ ≤ l.capacity + l.nominalRefillPerSec * (s.bucket.last - t)
    linarith
  · refine (granted_cons s e t u).trans_le ?_
    by_cases within : t ≤ now ∧ now ≤ u
    case neg => rw [show e.unitsIn t u = 0 from if_neg within, zero_add]; exact h.budget t u le
    case pos =>
      have potential := h.potential t (last ▸ within.left)
      have filled := mul_nonneg l.nominal_nonneg (sub_nonneg.mpr within.right)
      rw [show e.unitsIn t u = units from if_pos within, h.granted_later (last ▸ within.right)]
      rw [last] at potential ⊢
      linarith
  · rcases List.mem_cons.mp mem with eq | mem
    · cases eq
      exact enough
    · exact h.reserve mem
  · rcases List.mem_cons.mp mem with eq | mem
    · cases eq
    · exact h.cooling mem fits

theorem attempt (h : Inv l s) (mono : s.clock ≤ now) (cost : Nat) (priority : Priority) :
    Inv l (s.attempt l now cost priority) := by
  have later : s.bucket.last ≤ now := h.last.trans mono
  rcases RateLimiter.attempt_cases h.sound later cost priority with ⟨wait, eq⟩ | ⟨free, ⟨wait, eq⟩ | ⟨units, nonneg, enough, eq⟩⟩
  · rw [Limiting.attempt, eq]
    simp only [Limiting.turns, lt_irrefl, if_false]
    exact { h.same mono with }
  · rw [Limiting.attempt, eq]
    exact { h.settle mono free with }
  · have settled := h.settle mono free
    have last := (RateLimiter.settled_spec h.sound (later : _ ≤ now)).right.left
    have raised := (RateLimiter.settled_spec h.sound (later : _ ≤ now)).right.right.right.left
    have log : (s.turns now (l.settled s.bucket now)).log = s.log := if_neg (not_lt.mpr raised)
    have granted := settled.grant last nonneg enough fun t pause mem fits => h.ended mono free (log ▸ mem) fits
    rw [Limiting.attempt, eq]
    simpa only [Limiting.turns] using granted

theorem report (h : Inv l s) (mono : s.clock ≤ now) (retryAfter : Option Duration) :
    Inv l (s.report l now retryAfter) := by
  obtain ⟨sound, tokens, last, rate, extends_, covers, panics⟩ := RateLimiter.report_spec now h.sound retryAfter
  have drained : (l.reportRateLimited s.bucket now retryAfter).1.tokens ≤
      s.bucket.tokens + l.nominalRefillPerSec * (now - s.bucket.last) := by
    rw [tokens]
    exact add_nonneg h.sound.nonneg (mul_nonneg l.nominal_nonneg (sub_nonneg.mpr (h.last.trans mono)))
  have turned := h.turns mono sound last drained (fun cools => (rate cools).ge) fun c eq => .inr (extends_ c eq)
  have unit (t u : Instant) : (s.report l now retryAfter).granted t u =
      (s.turns now (l.reportRateLimited s.bucket now retryAfter).1).granted t u :=
    (List.sum_cons ..).trans (zero_add _)
  refine ⟨sound, turned.last, fun mem => ?_, fun t le => ?_, fun t u le => ?_, turned.waits_cons fun _ _ _ _ => trivial,
    fun mem => ?_, fun mem fits => ?_, ?_⟩
  · rcases List.mem_cons.mp mem with eq | mem
    · cases eq
    · exact turned.past mem
  · rw [unit]
    exact turned.potential t le
  · rw [unit]
    exact turned.budget t u le
  · rcases List.mem_cons.mp mem with eq | mem
    · cases eq
    · exact turned.reserve mem
  · rcases List.mem_cons.mp mem with eq | mem
    · cases eq
      exact .inr (covers fits)
    · exact turned.cooling mem fits
  · have earlier := turned.panics
    rw [Limiting.report, List.countP_cons]
    simp only [Entry.Fits, panics, not_lt, decide_eq_true_eq]
    split
    · exact congrArg (· + 1) earlier
    · exact earlier

theorem step (h : Inv l s) (hs : Limiting.step l s a = some s') : Inv l s' := by
  by_cases mono : s.clock ≤ a.now
  case neg => rw [Limiting.step.eq_def, if_neg mono] at hs; cases hs
  rw [Limiting.step.eq_def, if_pos mono] at hs
  cases a <;> dsimp only at hs
  case acquire => cases hs; exact h.attempt mono ..
  case wake i now =>
    split at hs
    case h_2 => cases hs
    case h_1 =>
      split at hs <;> cases hs
      have rest : Inv l { s with waiting := s.waiting.eraseIdx i } := { h with }
      exact rest.attempt mono ..
  case answered =>
    split at hs <;> cases hs
    · exact h.report mono _
    · exact h.same mono

end Inv

variable {l : RateLimiter} {s : Limiting}

theorem reachable_inv (h : (limiting l).Reachable (fun _ _ => True) s) : Inv l s := by
  refine h.invariant (fun s start => ?_) fun _ _ _ inv _ hs => inv.step hs
  obtain ⟨now, rfl⟩ := start
  have floor : l.nominalRefillPerSec * FLOOR ≤ l.nominalRefillPerSec := by
    have := l.nominal_nonneg
    norm_num [FLOOR]
    linarith
  have room {t u : Instant} (le : t ≤ u) : l.capacity ≤ l.capacity + l.nominalRefillPerSec * (u - t) :=
    le_add_of_nonneg_right (mul_nonneg l.nominal_nonneg (sub_nonneg.mpr le))
  exact ⟨⟨l.capacity_nonneg, le_rfl, floor, le_rfl⟩, le_rfl, nofun, fun t le => (zero_add _).trans_le (room le),
    fun t u le => l.capacity_nonneg.trans (room le), .nil, nofun, nofun, rfl⟩

-- A limiter keeps to all of it in a run exactly when each pause that the provider asked for ends at an instant.
theorem reachable_paced_iff (h : (limiting l).Reachable (fun _ _ => True) s) : Limited l s ↔ ∀ e ∈ s.log, e.Fits := by
  have inv := reachable_inv h
  have none : s.panics = 0 ↔ ∀ e ∈ s.log, e.Fits := by
    rw [inv.panics, List.countP_eq_zero]
    simp
  refine ⟨fun limited => none.mp limited.panics, fun fits => ?_⟩
  refine ⟨inv.budget, ?_, inv.reserve, ⟨inv.sound.floor_le, inv.sound.rate_le⟩, none.mpr fits⟩
  exact inv.waits.imp_of_mem fun _ mem waits => waits (fits _ mem)

end Limiting

section Overflow

-- A limiter whose provider is busy for as long as a header can say.
def paused (secs : UInt64) : Limiting :=
  ({ bucket := RateLimiter.gmailDefault.full 0, clock := 0 } : Limiting).report .gmailDefault 0
    (some (secs.toNat : ℚ))

theorem paused_reachable (secs : UInt64) :
    (limiting .gmailDefault).Reachable (fun _ _ => True) (paused secs) :=
  .step (a := .answered (fun _ _ => none) 429 (some secs) {} 0) (.start ⟨0, rfl⟩) trivial (by
    simp [limiting, Limiting.step, Limiter.Action.now, classify, paused])

theorem fits_paused (secs : UInt64) : (∀ e ∈ (paused secs).log, e.Fits) ↔ secs.toNat < 2 ^ 63 := by
  have log : ∃ earlier ⊆ [.slowed 0], (paused secs).log = .paused 0 secs.toNat :: earlier := by
    simp only [paused, Limiting.report, Limiting.turns]
    split
    · exact ⟨_, List.Subset.refl _, rfl⟩
    · exact ⟨[], List.nil_subset _, rfl⟩
  have fits : (Entry.paused 0 secs.toNat).Fits ↔ secs.toNat < 2 ^ 63 := by
    simp only [Entry.Fits, INSTANT_END, zero_add]
    exact_mod_cast Iff.rfl
  obtain ⟨earlier, sub, log⟩ := log
  rw [log, List.forall_mem_cons, fits]
  refine and_iff_left fun e mem => ?_
  cases List.mem_singleton.mp (sub mem)
  trivial

theorem limited_paused : Limited .gmailDefault (paused 30) :=
  (Limiting.reachable_paced_iff (paused_reachable 30)).mpr ((fits_paused 30).mpr (by decide))

-- A pause of as many seconds as a header can name.
theorem pause_overflows : (limiting .gmailDefault).Reachable (fun _ _ => True) (paused 18446744073709551615) ∧
    ¬Limited .gmailDefault (paused 18446744073709551615) := by
  refine ⟨paused_reachable _, fun limited => ?_⟩
  have inv := Limiting.reachable_inv (paused_reachable 18446744073709551615)
  have none : ∀ e ∈ (paused 18446744073709551615).log, e.Fits := by
    have := inv.panics.symm.trans limited.panics
    simpa [List.countP_eq_zero] using this
  exact absurd ((fits_paused _).mp none) (by decide)

end Overflow
end Kaluta.Provider
