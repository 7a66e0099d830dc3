import Mathlib.Algebra.Order.Field.Rat
import Mathlib.Tactic.Linarith
import Mathlib.Tactic.Ring

-- Token buckets in memory: a burst of a minute's allowance, refilled evenly.
namespace Kaluta.RateLimit

-- Beyond this many buckets, full ones are dropped.
def PRUNE_AT : Nat := 10000

structure Bucket where
  tokens : Rat
  last   : Rat -- In seconds.
  deriving DecidableEq

structure RateLimiter where
  perMinute : Nat
  buckets   : Std.HashMap String Bucket

structure Call where
  now  : Rat
  key  : String
  take : Bool
  deriving DecidableEq

abbrev Answer := Except Rat Unit

section Rates

variable (perMinute : Nat)

def capacity : Rat :=
  perMinute

def perSecond : Rat :=
  capacity perMinute / 60

def filled (b : Bucket) (now : Rat) : Rat :=
  b.tokens + (now - b.last) * perSecond perMinute

end Rates

namespace RateLimiter

-- 0 turns limiting off.
def new (perMinute : Nat) : RateLimiter where
  perMinute := perMinute
  buckets   := ∅

variable (l : RateLimiter)

def prune (now : Rat) : RateLimiter :=
  if PRUNE_AT < l.buckets.size then
    { l with buckets := l.buckets.filter fun _ b => filled l.perMinute b now < capacity l.perMinute }
  else l

-- One request at the key's bucket.
def serve (c : Call) : Answer × RateLimiter :=
  let b := l.buckets[c.key]?.getD { tokens := capacity l.perMinute, last := c.now }
  let tokens := min (filled l.perMinute b c.now) (capacity l.perMinute)
  if 1 ≤ tokens then
    (.ok (), { l with buckets := l.buckets.insert c.key
                        { tokens := if c.take then tokens - 1 else tokens, last := c.now } })
  else
    (.error ((1 - tokens) / perSecond l.perMinute),
      { l with buckets := l.buckets.insert c.key { tokens, last := c.now } })

def bucket (c : Call) : Answer × RateLimiter :=
  if l.perMinute = 0 then (.ok (), l) else (l.prune c.now).serve c

-- A limiter that never drops a bucket.
def keeping (c : Call) : Answer × RateLimiter :=
  if l.perMinute = 0 then (.ok (), l) else l.serve c

def take (key : String) (now : Rat) : Answer × RateLimiter :=
  l.bucket { now, key, take := true }

def peek (key : String) (now : Rat) : Answer × RateLimiter :=
  l.bucket { now, key, take := false }

end RateLimiter

section Runs

variable (step : RateLimiter → Call → Answer × RateLimiter)

def answers (l : RateLimiter) : List Call → List Answer
  | []      => []
  | c :: cs => (step l c).1 :: answers (step l c).2 cs

def after (l : RateLimiter) (cs : List Call) : RateLimiter :=
  cs.foldl (fun l c => (step l c).2) l

variable {step} {l : RateLimiter} {c : Call} {pre post : List Call}

theorem answers_append : answers step l (pre ++ post) = answers step l pre ++ answers step (after step l pre) post := by
  induction pre generalizing l
  case nil           => rfl
  case cons c pre ih => rw [List.cons_append, answers, answers, ih, List.cons_append, after, after, List.foldl_cons]

theorem length_answers (step : RateLimiter → Call → Answer × RateLimiter) (l : RateLimiter) (pre : List Call) :
    (answers step l pre).length = pre.length := by
  induction pre generalizing l
  case nil           => rfl
  case cons c pre ih => rw [answers, List.length_cons, List.length_cons, ih]

theorem answers_at : (answers step l (pre ++ c :: post))[pre.length]? = some (step (after step l pre) c).1 := by
  have cut := length_answers step l pre
  rw [answers_append, answers, ← cut, List.getElem?_append_right le_rfl, Nat.sub_self, List.getElem?_cons_zero]

end Runs

-- The requests of a key that were allowed in a span of time.
def allowed (key : String) (s e : Rat) (cs : List Call) (answers : List Answer) : Nat :=
  (cs.zip answers).countP fun (c, a) => c.key = key && c.take && s ≤ c.now && c.now ≤ e && a.isOk

-- How many requests a bucket allows, or one that is not there.
def level (perMinute : Nat) (b : Option Bucket) (now : Rat) : Rat :=
  match b with
  | none   => capacity perMinute
  | some b => min (filled perMinute b now) (capacity perMinute)

section Level

variable {n : Nat} {b : Option Bucket} {now later : Rat}

theorem perSecond_nonneg : 0 ≤ perSecond n :=
  div_nonneg (Nat.cast_nonneg n) (by norm_num)

theorem level_le : level n b now ≤ capacity n := by
  cases b
  case none   => exact le_rfl
  case some b => exact min_le_right _ _

-- A bucket fills evenly up to the capacity.
theorem level_later (le : now ≤ later) :
    level n b later = min (level n b now + (later - now) * perSecond n) (capacity n) := by
  have gained : 0 ≤ (later - now) * perSecond n := mul_nonneg (sub_nonneg.mpr le) perSecond_nonneg
  cases b
  case none   => exact (min_eq_right (le_add_of_nonneg_right gained)).symm
  case some b =>
    have sum : filled n b later = filled n b now + (later - now) * perSecond n := by
      rw [filled, filled]
      ring
    rw [level, level, sum, min_add, min_assoc, min_eq_right (le_add_of_nonneg_right gained)]

-- One without a bucket is as one with a full bucket.
theorem level_of_full {b : Bucket} (full : capacity n ≤ filled n b now) (le : now ≤ later) : level n (some b) later = capacity n := by
  have here : level n (some b) now = capacity n := min_eq_right full
  rw [level_later le, here]
  exact min_eq_right (le_add_of_nonneg_right (mul_nonneg (sub_nonneg.mpr le) perSecond_nonneg))

theorem level_self {tokens : Rat} (le : tokens ≤ capacity n) : level n (some { tokens, last := now }) now = tokens := by
  rw [level, filled, sub_self, zero_mul, add_zero, min_eq_left le]

end Level

namespace RateLimiter

variable {l l' : RateLimiter} {key : String} {c : Call} {now later : Rat}

-- How many requests a key has left.
def left (l : RateLimiter) (key : String) (now : Rat) : Rat :=
  level l.perMinute l.buckets[key]? now

-- What is dropped was full.
theorem left_prune (le : now ≤ later) : (l.prune now).left key later = l.left key later := by
  rw [prune]
  split
  case isFalse => rfl
  case isTrue  =>
    rw [left, left, Std.HashMap.getElem?_filter']
    cases l.buckets[key]?
    case none => rfl
    case some b =>
      by_cases kept : filled l.perMinute b now < capacity l.perMinute
      case pos => rw [Option.filter_some_pos (by simpa using kept)]
      case neg => rw [Option.filter_some_neg (by simpa using kept), level_of_full (not_lt.mp kept) le, level]

theorem perMinute_prune : (l.prune now).perMinute = l.perMinute := by
  rw [prune]
  split
  case isTrue  => rfl
  case isFalse => rfl

-- What a request leaves.
def spent (l : RateLimiter) (c : Call) : Rat :=
  if 1 ≤ l.left c.key c.now ∧ c.take then l.left c.key c.now - 1 else l.left c.key c.now

theorem spent_le : l.spent c ≤ capacity l.perMinute := by
  rw [spent]
  split
  case isTrue  => exact (sub_le_self _ zero_le_one).trans level_le
  case isFalse => exact level_le

theorem tokens_eq : min (filled l.perMinute (l.buckets[c.key]?.getD { tokens := capacity l.perMinute, last := c.now }) c.now)
    (capacity l.perMinute) = l.left c.key c.now := by
  rw [left]
  cases l.buckets[c.key]?
  case some b => rfl
  case none   => exact level_self le_rfl

theorem serve_answer (l : RateLimiter) (c : Call) : (l.serve c).1 =
    if 1 ≤ l.left c.key c.now then .ok () else .error ((1 - l.left c.key c.now) / perSecond l.perMinute) := by
  rw [serve, tokens_eq]
  split
  case isTrue  => rfl
  case isFalse => rfl

theorem serve_limiter (l : RateLimiter) (c : Call) : (l.serve c).2 =
    { l with buckets := l.buckets.insert c.key { tokens := l.spent c, last := c.now } } := by
  rw [serve, tokens_eq, spent]
  split
  case isTrue enough =>
    simp only [enough, true_and]
  case isFalse few =>
    simp only [few, false_and, if_false]

theorem left_serve_self (le : c.now ≤ later) :
    (l.serve c).2.left c.key later = min (l.spent c + (later - c.now) * perSecond l.perMinute) (capacity l.perMinute) := by
  rw [serve_limiter, left, Std.HashMap.getElem?_insert_self]
  change level l.perMinute _ later = _
  rw [level_later le, level_self spent_le]

theorem left_serve_of_ne (ne : key ≠ c.key) : (l.serve c).2.left key later = l.left key later := by
  have other : (c.key == key) = false := beq_eq_false_iff_ne.mpr ne.symm
  rw [serve_limiter, left, Std.HashMap.getElem?_insert, other]
  rfl

theorem perMinute_serve : (l.serve c).2.perMinute = l.perMinute := by
  rw [serve_limiter]

-- Limiters that cannot be told apart from some time on.
structure Like (now : Rat) (l l' : RateLimiter) : Prop where
  perMinute : l.perMinute = l'.perMinute
  left {later : Rat} {key : String} : now ≤ later → l.left key later = l'.left key later

theorem Like.refl (now : Rat) (l : RateLimiter) : Like now l l :=
  ⟨rfl, fun _ => rfl⟩

theorem Like.trans (h : Like now l₁ l₂) (h' : Like now l₂ l₃) : Like now l₁ l₃ :=
  ⟨h.perMinute.trans h'.perMinute, fun le => (h.left le).trans (h'.left le)⟩

theorem Like.mono (h : Like now l l') (le : now ≤ later) : Like later l l' :=
  ⟨h.perMinute, fun le' => h.left (le.trans le')⟩

theorem like_prune (now : Rat) (l : RateLimiter) : Like now (l.prune now) l :=
  ⟨perMinute_prune, left_prune⟩

namespace Like

theorem spent (h : Like c.now l l') : l.spent c = l'.spent c := by
  rw [RateLimiter.spent, RateLimiter.spent, h.left le_rfl]

theorem serve (h : Like c.now l l') : (l.serve c).1 = (l'.serve c).1 ∧ Like c.now (l.serve c).2 (l'.serve c).2 := by
  refine ⟨?_, ?_, fun {later key} le => ?_⟩
  · rw [serve_answer, serve_answer, h.left le_rfl, h.perMinute]
  · rw [perMinute_serve, perMinute_serve, h.perMinute]
  · by_cases same : key = c.key
    case pos => rw [same, left_serve_self le, left_serve_self le, h.spent, h.perMinute]
    case neg => rw [left_serve_of_ne same, left_serve_of_ne same, h.left le]

-- Dropping buckets makes no difference.
theorem bucket (h : Like c.now l l') :
    (l.bucket c).1 = (l'.keeping c).1 ∧ Like c.now (l.bucket c).2 (l'.keeping c).2 := by
  rw [RateLimiter.bucket, keeping, h.perMinute]
  split
  case isTrue  => exact ⟨rfl, h⟩
  case isFalse => exact ((like_prune c.now l).trans h).serve

theorem answers {cs : List Call} (h : Like now l l') (times : (now :: cs.map (·.now)).Pairwise (· ≤ ·)) :
    answers RateLimiter.bucket l cs = answers keeping l' cs := by
  induction cs generalizing now l l'
  case nil => rfl
  case cons c cs ih =>
    have le : now ≤ c.now := List.rel_of_pairwise_cons times List.mem_cons_self
    have ⟨answer, like⟩ := (h.mono le).bucket
    rw [RateLimit.answers, RateLimit.answers, answer, ih like times.of_cons]

end Like

-- A peek leaves everything as it was.
theorem Like.peek (h : c.take = false) : Like c.now (l.keeping c).2 l := by
  rw [keeping]
  split
  case isTrue  => exact Like.refl c.now l
  case isFalse =>
    have same : l.spent c = l.left c.key c.now := by
      rw [RateLimiter.spent, h]
      exact if_neg (fun both => Bool.false_ne_true both.right)
    refine ⟨perMinute_serve, fun {later key} le => ?_⟩
    by_cases own : key = c.key
    case pos =>
      rw [own, left_serve_self le, same]
      exact (level_later le).symm
    case neg => exact left_serve_of_ne own

-- A request takes nothing from other keys, and never gives anything.
theorem left_keeping (le : c.now ≤ later) (other : c.key = key → c.take = false) :
    (l.keeping c).2.left key later = l.left key later := by
  by_cases own : c.key = key
  case pos => exact (Like.peek (other own)).left le
  case neg =>
    rw [keeping]
    split
    case isTrue  => rfl
    case isFalse => exact left_serve_of_ne (Ne.symm own)

theorem left_after {cs : List Call} (le : ∀ c ∈ cs, c.now ≤ later) (other : ∀ c ∈ cs, c.key = key → c.take = false) :
    (after keeping l cs).left key later = l.left key later := by
  induction cs generalizing l
  case nil => rfl
  case cons c cs ih =>
    have rest := ih (l := (l.keeping c).2) (fun c hc => le c (List.mem_cons_of_mem _ hc))
      (fun c hc => other c (List.mem_cons_of_mem _ hc))
    exact rest.trans (left_keeping (le c List.mem_cons_self) (other c List.mem_cons_self))

section Waiting

variable {d : Rat}

theorem keeping_answer : (l.keeping c).1 =
    if l.perMinute = 0 ∨ 1 ≤ l.left c.key c.now then .ok () else .error ((1 - l.left c.key c.now) / perSecond l.perMinute) := by
  rw [keeping]
  by_cases off : l.perMinute = 0
  case pos => rw [if_pos off, if_pos (.inl off)]
  case neg =>
    rw [if_neg off, serve_answer]
    simp only [off, false_or]

-- After the time it was told a key has a request left.
theorem left_waited (told : (l.keeping c).1 = .error d) (le : c.now + d ≤ later) :
    1 ≤ (l.keeping c).2.left c.key later := by
  rw [keeping_answer] at told
  split at told
  case isTrue => cases told
  case isFalse few =>
    have ⟨on, less⟩ := not_or.mp few
    injection told with wait
    have one : (1 : Rat) ≤ capacity l.perMinute := Nat.one_le_cast.mpr (Nat.one_le_iff_ne_zero.mpr on)
    have rate : 0 < perSecond l.perMinute := div_pos (zero_lt_one.trans_le one) (by norm_num)
    have nonneg : 0 ≤ d := wait ▸ div_nonneg (sub_nonneg.mpr (not_le.mp less).le) rate.le
    have first : c.now ≤ later := (le_add_of_nonneg_right nonneg).trans le
    have same : l.spent c = l.left c.key c.now := if_neg (fun both => less both.left)
    rw [keeping, if_neg on, left_serve_self first, same]
    refine le_min ?_ one
    have filling : 1 - l.left c.key c.now = d * perSecond l.perMinute := by
      rw [← wait, div_mul_cancel₀ _ rate.ne']
    have waited : d * perSecond l.perMinute ≤ (later - c.now) * perSecond l.perMinute :=
      mul_le_mul_of_nonneg_right (by linarith) rate.le
    linarith

end Waiting

-- A key never owes a request.
def Solvent (now : Rat) (l : RateLimiter) : Prop :=
  ∀ key later, now ≤ later → 0 ≤ l.left key later

theorem new_solvent (n : Nat) (now : Rat) : Solvent now (new n) := by
  intro key later _
  rw [left, new, Std.HashMap.getElem?_empty]
  exact Nat.cast_nonneg n

theorem spent_nonneg (h : Solvent now l) (le : now ≤ c.now) : 0 ≤ l.spent c := by
  rw [spent]
  split
  case isTrue enough => exact sub_nonneg.mpr enough.left
  case isFalse       => exact h c.key c.now le

theorem serve_solvent (h : Solvent now l) (le : now ≤ c.now) : Solvent c.now (l.serve c).2 := by
  intro key later le'
  by_cases own : key = c.key
  case pos =>
    rw [own, left_serve_self le']
    have gained : 0 ≤ (later - c.now) * perSecond l.perMinute := mul_nonneg (sub_nonneg.mpr le') perSecond_nonneg
    exact le_min (add_nonneg (spent_nonneg h le) gained) (Nat.cast_nonneg l.perMinute)
  case neg =>
    rw [left_serve_of_ne own]
    exact h key later (le.trans le')

theorem left_later (l : RateLimiter) (key : String) (le : now ≤ later) : l.left key later ≤ l.left key now + (later - now) * perSecond l.perMinute := by
  rw [left, left, level_later le]
  exact min_le_left _ _

theorem left_serve_le (le : c.now ≤ later) : (l.serve c).2.left key later ≤ l.left key later := by
  by_cases own : key = c.key
  case neg => exact (left_serve_of_ne own).le
  case pos =>
    have less : l.spent c ≤ l.left c.key c.now := by
      rw [spent]
      split
      case isTrue  => exact sub_le_self _ zero_le_one
      case isFalse => exact le_rfl
    rw [own, left_serve_self le]
    exact (min_le_min_right _ (add_le_add_left less _)).trans_eq (level_later le).symm

theorem left_serve_taken (take : c.take) (answer : (l.serve c).1.isOk) :
    (l.serve c).2.left c.key c.now + 1 ≤ l.left c.key c.now := by
  rw [serve_answer] at answer
  split at answer
  case isFalse => cases answer
  case isTrue enough =>
    have paid : l.spent c = l.left c.key c.now - 1 := if_pos ⟨enough, take⟩
    rw [left_serve_self le_rfl, paid, sub_self, zero_mul, add_zero]
    have := min_le_left (l.left c.key c.now - 1) (capacity l.perMinute)
    linarith

section Spans

variable {s e : Rat} {cs : List Call}

-- What a request is counted for is gone from what is left.
theorem paid (l : RateLimiter) (key : String) (s e : Rat) (c : Call) :
    ((if c.key = key && c.take && s ≤ c.now && c.now ≤ e && (l.serve c).1.isOk then 1 else 0 : Nat) : Rat) +
      (l.serve c).2.left key (max s c.now) ≤ l.left key (max s c.now) := by
  split
  case isFalse =>
    rw [Nat.cast_zero, zero_add]
    exact left_serve_le (le_max_right s c.now)
  case isTrue counted =>
    simp only [Bool.and_eq_true, decide_eq_true_eq] at counted
    have ⟨⟨⟨⟨own, take⟩, start⟩, _⟩, answer⟩ := counted
    rw [max_eq_right start, Nat.cast_one, add_comm, ← own]
    exact left_serve_taken take answer

theorem allowed_late {as : List Answer} (late : ∀ c ∈ cs, e < c.now) : allowed key s e cs as = 0 := by
  rw [allowed, List.countP_eq_zero]
  intro (c, a) mem
  have after := not_le.mpr (late c (List.of_mem_zip mem).left)
  simp [after]

-- What is allowed in a span is what is left at its start and what is filled until its end.
theorem allowed_le (key : String) (on : l.perMinute ≠ 0) (h : Solvent now l) (times : (now :: cs.map (·.now)).Pairwise (· ≤ ·))
    (span : max s now ≤ e) : (allowed key s e cs (answers keeping l cs) : Rat) ≤
      l.left key (max s now) + (e - max s now) * perSecond l.perMinute := by
  induction cs generalizing now l
  case nil =>
    have rest : 0 ≤ (e - max s now) * perSecond l.perMinute := mul_nonneg (sub_nonneg.mpr span) perSecond_nonneg
    exact add_nonneg (h key _ (le_max_right s now)) rest
  case cons c cs ih =>
    have first : now ≤ c.now := List.rel_of_pairwise_cons times List.mem_cons_self
    have rate : 0 ≤ perSecond l.perMinute := perSecond_nonneg
    by_cases late : e < c.now
    case pos =>
      have none : allowed key s e (c :: cs) (answers keeping l (c :: cs)) = 0 := by
        refine allowed_late (fun x mem => ?_)
        rcases List.mem_cons.mp mem with rfl | later
        · exact late
        · exact late.trans_le (List.rel_of_pairwise_cons times.of_cons (List.mem_map_of_mem later))
      rw [none, Nat.cast_zero]
      exact add_nonneg (h key _ (le_max_right s now)) (mul_nonneg (sub_nonneg.mpr span) rate)
    case neg =>
      have serving : l.keeping c = l.serve c := if_neg on
      have within : max s c.now ≤ e := max_le ((le_max_left s now).trans span) (not_lt.mp late)
      have on' : (l.serve c).2.perMinute ≠ 0 := perMinute_serve.symm ▸ on
      have rest := ih on' (serve_solvent h first) times.of_cons within
      have filling := l.left_later key (max_le_max_left s first)
      have paid := l.paid key s e c
      rw [perMinute_serve] at rest
      rw [allowed, answers, List.zip_cons_cons, List.countP_cons, Nat.cast_add, serving]
      rw [allowed] at rest
      linarith

theorem new_allowed {n : Nat} (on : n ≠ 0) (times : (cs.map (·.now)).Pairwise (· ≤ ·)) (span : s ≤ e) :
    (allowed key s e cs (answers keeping (new n) cs) : Rat) ≤ capacity n + (e - s) * perSecond n := by
  have ⟨first, start, before⟩ : ∃ first ≤ s, (first :: cs.map (·.now)).Pairwise (· ≤ ·) := by
    cases cs
    case nil       => exact ⟨s, le_rfl, List.pairwise_singleton _ s⟩
    case cons c cs =>
      refine ⟨min s c.now, min_le_left s c.now, List.pairwise_cons.mpr ⟨fun x mem => ?_, times⟩⟩
      rcases List.mem_cons.mp mem with rfl | later
      · exact min_le_right s c.now
      · exact (min_le_right s c.now).trans (List.rel_of_pairwise_cons times later)
  have bound := allowed_le key on (new_solvent n first) before ((max_eq_left start).trans_le span)
  rw [max_eq_left start] at bound
  exact bound.trans (add_le_add_left level_le _)

end Spans

section Lists

variable {pre between post : List Call} {c' : Call} {cs : List Call}

theorem bucket_answers (n : Nat) (times : (cs.map (·.now)).Pairwise (· ≤ ·)) :
    answers bucket (new n) cs = answers keeping (new n) cs := by
  cases cs
  case nil       => rfl
  case cons c cs =>
    exact (Like.refl c.now (new n)).answers (List.pairwise_cons.mpr ⟨fun x mem => by
      rcases List.mem_cons.mp mem with rfl | later
      · exact le_rfl
      · exact List.rel_of_pairwise_cons times later, times⟩)

theorem peek_answers (peek : c.take = false) (times : ((c :: post).map (·.now)).Pairwise (· ≤ ·)) :
    answers keeping (l.keeping c).2 post = answers keeping l post := by
  have like : Like c.now (l.keeping c).2 l := .peek peek
  exact ((Like.refl c.now _).answers times).symm.trans (like.answers times)

theorem waited_answer {d : Rat} (told : (l.keeping c).1 = .error d) (same : c'.key = c.key) (wait : c.now + d ≤ c'.now)
    (alone : ∀ x ∈ between, x.key = c.key → x.take = false) (times : ∀ x ∈ between, x.now ≤ c'.now) :
    ((after keeping (l.keeping c).2 between).keeping c').1 = .ok () := by
  have enough := left_waited told wait
  rw [← left_after times alone, ← same] at enough
  rw [keeping_answer]
  exact if_pos (.inr enough)

end Lists

end RateLimiter

open RateLimiter in
-- Dropping full buckets is not noticed, peeks are not either, and no key gets more than its rate.
theorem answers_fair (n : Nat) (calls : List Call) (times : (calls.map (·.now)).Pairwise (· ≤ ·)) :
    answers bucket (new n) calls = answers keeping (new n) calls ∧
    (n = 0 → ∀ a ∈ answers bucket (new n) calls, a = .ok ()) ∧
    (n ≠ 0 → ∀ key s e, s ≤ e →
      (allowed key s e calls (answers bucket (new n) calls) : Rat) ≤ capacity n + (e - s) * perSecond n) ∧
    (∀ pre c post, calls = pre ++ c :: post → c.take = false →
      answers bucket (new n) (pre ++ post) = (answers bucket (new n) calls).eraseIdx pre.length) ∧
    ∀ pre c between c' post d, calls = pre ++ c :: (between ++ c' :: post) →
      (answers bucket (new n) calls)[pre.length]? = some (.error d) → c'.key = c.key → c.now + d ≤ c'.now →
      (∀ x ∈ between, x.key = c.key → x.take = false) →
      (answers bucket (new n) calls)[(pre ++ c :: between).length]? = some (.ok ()) := by
  refine ⟨bucket_answers n times, ?off, ?bound, ?peeks, ?waits⟩
  case off =>
    rintro rfl a mem
    rw [bucket_answers 0 times] at mem
    clear times
    induction calls
    case nil          => cases mem
    case cons c cs ih =>
      rcases List.mem_cons.mp mem with rfl | later
      · rfl
      · exact ih later
  case bound =>
    intro on key s e span
    rw [bucket_answers n times]
    exact new_allowed on times span
  case peeks =>
    rintro pre c post rfl peek
    rw [List.map_append] at times
    have rest : ((pre ++ post).map (·.now)).Pairwise (· ≤ ·) := by
      rw [List.map_append]
      exact times.sublist ((List.sublist_cons_self _ _).append_left _)
    rw [← List.map_append] at times
    have length := length_answers keeping (new n) pre
    rw [bucket_answers n times, bucket_answers n rest, answers_append, answers_append, answers, ← length,
      List.eraseIdx_append_of_length_le le_rfl, Nat.sub_self, List.eraseIdx_cons_zero]
    rw [List.map_append] at times
    rw [peek_answers peek (List.pairwise_append.mp times).right.left]
  case waits =>
    rintro pre c between c' post d rfl told same wait alone
    rw [bucket_answers n times, answers_at, Option.some_inj] at told
    have regroup : pre ++ c :: (between ++ c' :: post) = (pre ++ c :: between) ++ c' :: post := by
      rw [List.append_assoc, List.cons_append]
    rw [bucket_answers n times, regroup, answers_at, Option.some_inj]
    have through : after keeping (new n) (pre ++ c :: between) =
        after keeping ((after keeping (new n) pre).keeping c).2 between := by
      rw [after, List.foldl_append, List.foldl_cons]
      rfl
    rw [through]
    refine waited_answer told same wait alone (fun x mem => ?_)
    rw [regroup, List.map_append] at times
    have before := (List.pairwise_append.mp times).right.right
    exact before x.now (List.mem_map_of_mem (List.mem_append_right _ (List.mem_cons_of_mem _ mem)))
      c'.now (List.mem_map_of_mem List.mem_cons_self)

-- The second of these is told to wait for the minute's end.
def pressed : List Call :=
  [{ now := 0, key := "a", take := true }, { now := 1, key := "a", take := false }, { now := 60, key := "a", take := true }]

open RateLimiter in
theorem pressed_fair : answers bucket (new 1) pressed = answers keeping (new 1) pressed ∧
    ∀ key, (allowed key 0 60 pressed (answers bucket (new 1) pressed) : Rat) ≤ capacity 1 + (60 - 0) * perSecond 1 := by
  have times : (pressed.map (·.now)).Pairwise (· ≤ ·) := by
    rw [pressed]
    norm_num
  have fair := answers_fair 1 pressed times
  exact ⟨fair.left, fun key => fair.right.right.left one_ne_zero key 0 60 (by norm_num)⟩

open RateLimiter in
-- With limiting off a key gets more than a burst of none.
theorem off_unbounded : let calls : List Call := [{ now := 0, key := "a", take := true }]
    (calls.map (·.now)).Pairwise (· ≤ ·) ∧
    ¬ (allowed "a" 0 0 calls (answers bucket (new 0) calls) : Rat) ≤ capacity 0 + (0 - 0) * perSecond 0 := by
  refine ⟨List.pairwise_singleton _ _, ?_⟩
  have one : allowed "a" 0 0 [{ now := 0, key := "a", take := true }]
      (answers bucket (new 0) [{ now := 0, key := "a", take := true }]) = 1 := by
    decide
  rw [one, capacity]
  norm_num

end Kaluta.RateLimit
