import Kaluta.Store.Basic
import Kaluta.Lib.Execution

-- The breaker that keeps sync jobs from IMAP after repeated failures, and the operations that ask it.
namespace Kaluta.Transport

-- After this many IMAP failures in a row the breaker opens…
def BREAKER_FAILURES : Nat := 3

-- …for this long.
def BREAKER_OPEN_MS : Millis := 15 * 60 * 1000

structure State where
  failures  : Nat := 0
  openUntil : Option Millis := none
  lastError : Option String := none
  deriving DecidableEq

namespace State

def imapAllowed (s : State) (now : Millis) : Bool × State :=
  match s.openUntil with
  | some until_ =>
    if now < until_ then (false, s)
    -- Half-open: one try; a failure opens it again at once.
    else (true, { s with openUntil := none, failures := BREAKER_FAILURES - 1 })
  | none => (true, s)

def imapSucceeded (s : State) : State :=
  { s with failures := 0, openUntil := none }

def imapFailed (s : State) (error : String) (now : Millis) : String × State :=
  let s := { s with failures := s.failures + 1, lastError := some error }
  ("IMAP failed: " ++ error,
    if BREAKER_FAILURES ≤ s.failures then { s with openUntil := some (now + BREAKER_OPEN_MS) } else s)

def breakerReason (s : State) : String :=
  match s.lastError with
  | some e => "IMAP paused after repeated failures (" ++ e ++ ")"
  | none   => "IMAP paused after repeated failures"

-- The user asked for a refresh.
def reset (s : State) : State :=
  { s with failures := 0, openUntil := none }

end State

-- How an operation that asked was answered, and what had been reported by then.
structure Asked where
  allowed  : Bool
  streak   : Nat           -- Failures in a row.
  paused   : Bool          -- Less than a pause ago the last of them was reported.
  trying   : Bool          -- An operation let through after a pause has not reported yet.
  sinceTry : Option Millis -- How long ago such an operation failed.
  deriving DecidableEq

variable (κ : Type)

-- The breaker, the operations that run, and what they have reported of themselves.
structure World where
  breaker   : State := {}
  now       : Millis := 0
  running   : List κ := []
  streak    : Nat := 0
  pauseEnd  : Millis := 0          -- Of the last failure, once there are enough of them.
  trial     : Option κ := none     -- Let through after a pause, and not reported yet.
  failedTry : Option Millis := none
  asked     : List Asked := []
  deriving DecidableEq

inductive Action
  | ask (op : κ) (at_ : Millis)
  | succeed (op : κ)
  | fail (op : κ) (error : String) (at_ : Millis)
  | reset

variable {κ}

namespace World

def closed (s : World κ) : World κ :=
  { s with streak := 0, trial := none, failedTry := none }

def paused (s : World κ) : Bool :=
  s.now < s.pauseEnd

-- An operation asks; if it is let through, it runs.
def ask (s : World κ) (op : κ) : World κ :=
  let (allowed, breaker) := s.breaker.imapAllowed s.now
  let s := { s with
    breaker
    asked := { allowed, streak := s.streak, paused := s.paused, trying := s.trial.isSome,
               sinceTry := s.failedTry.map (s.now - ·) } :: s.asked }
  if allowed then
    { s with
      running := op :: s.running
      trial   := if BREAKER_FAILURES ≤ s.streak then some op else s.trial }
  else s

section Steps

variable [DecidableEq κ]

def succeed (s : World κ) (op : κ) : World κ :=
  { s with breaker := s.breaker.imapSucceeded, running := s.running.erase op }.closed

def fail (s : World κ) (op : κ) (error : String) : World κ :=
  { s with
    breaker   := (s.breaker.imapFailed error s.now).2
    running   := s.running.erase op
    streak    := s.streak + 1
    pauseEnd  := s.now + BREAKER_OPEN_MS
    trial     := if s.trial = some op then none else s.trial
    failedTry := if s.trial = some op then some s.now else s.failedTry }

-- Operations have ids of their own; only those that run report.
def step (s : World κ) : Action κ → Option (World κ)
  | .ask op at_    => if s.now ≤ at_ ∧ op ∉ s.running then some ({ s with now := at_ }.ask op) else none
  | .succeed op    => if op ∈ s.running then some (s.succeed op) else none
  | .fail op e at_ => if s.now ≤ at_ ∧ op ∈ s.running then some ({ s with now := at_ }.fail op e) else none
  | .reset         => some { s with breaker := s.breaker.reset }.closed

end Steps

end World

def operations [DecidableEq κ] : System (World κ) (Action κ) where
  Start s := ∃ now, s = { now }
  step    := World.step

-- While an operation let through after a pause has not reported, others ask only during a pause: one that a failure
-- reported since has begun.
def Alone (s : World κ) : Action κ → Prop
  | .ask _ at_ => s.trial ≠ none → at_ < s.pauseEnd
  | _          => True

instance [DecidableEq κ] (s : World κ) : (a : Action κ) → Decidable (Alone s a)
  | .ask _ at_  => inferInstanceAs (Decidable (s.trial ≠ none → at_ < s.pauseEnd))
  | .succeed _  => inferInstanceAs (Decidable True)
  | .fail _ _ _ => inferInstanceAs (Decidable True)
  | .reset      => inferInstanceAs (Decidable True)

namespace Asked

-- No operation is let through during a pause, one at a time after it, and none for a pause after that one has failed.
structure Right (a : Asked) : Prop where
  closed : a.streak < BREAKER_FAILURES → a.allowed = true
  paused : BREAKER_FAILURES ≤ a.streak → a.paused = true → a.allowed = false
  one    : BREAKER_FAILURES ≤ a.streak → a.paused = false → (a.allowed = true ↔ a.trying = false)
  again  : a.sinceTry = some t → t < BREAKER_OPEN_MS → a.allowed = false

end Asked

namespace World

structure Kept (s : World κ) : Prop where
  closed : s.streak < BREAKER_FAILURES →
    s.breaker.openUntil = none ∧ s.breaker.failures = s.streak ∧ s.trial = none ∧ s.failedTry = none
  opened : BREAKER_FAILURES ≤ s.streak → BREAKER_FAILURES ≤ s.breaker.failures + 1 ∧
    (s.breaker.openUntil = some s.pauseEnd ∨ s.breaker.openUntil = none ∧ s.trial ≠ none ∧ s.pauseEnd ≤ s.now)
  failed : s.failedTry = some t → t ≤ s.now ∧ t + BREAKER_OPEN_MS ≤ s.pauseEnd
  right  : ∀ a ∈ s.asked, a.Right

variable {s s' : World κ}

theorem Kept.later (h : s.Kept) (le : s.now ≤ t) : Kept { s with now := t } where
  closed   := h.closed
  opened n := (h.opened n).imp id (·.imp id fun ⟨shut, out, later⟩ => ⟨shut, out, later.trans le⟩)
  failed f := (h.failed f).imp (·.trans le) id
  right    := h.right

-- What an operation is answered: closed, during a pause, or the first one after it.
theorem Kept.answer (h : s.Kept) (alone : s.trial ≠ none → s.now < s.pauseEnd) :
    (s.streak < BREAKER_FAILURES ∧ s.breaker.imapAllowed s.now = (true, s.breaker)) ∨
    (BREAKER_FAILURES ≤ s.streak ∧ s.now < s.pauseEnd ∧ s.breaker.imapAllowed s.now = (false, s.breaker)) ∨
    (BREAKER_FAILURES ≤ s.streak ∧ s.pauseEnd ≤ s.now ∧ s.trial = none ∧ s.breaker.imapAllowed s.now =
      (true, { s.breaker with openUntil := none, failures := BREAKER_FAILURES - 1 })) := by
  rcases Nat.lt_or_ge s.streak BREAKER_FAILURES with few | many
  case inl =>
    have ⟨shut, _⟩ := h.closed few
    exact .inl ⟨few, by rw [State.imapAllowed, shut]⟩
  case inr =>
    rcases (h.opened many).right with open_ | ⟨_, out, late⟩
    case inr => exact absurd (alone out) (not_lt.mpr late)
    case inl =>
      rw [State.imapAllowed, open_]
      by_cases early : s.now < s.pauseEnd
      case pos => exact .inr (.inl ⟨many, early, if_pos early⟩)
      case neg =>
        refine .inr (.inr ⟨many, not_lt.mp early, ?_, if_neg early⟩)
        exact of_not_not fun out => early (alone out)

theorem Kept.ask (h : s.Kept) (alone : s.trial ≠ none → s.now < s.pauseEnd) : (s.ask op).Kept := by
  rcases h.answer alone with ⟨few, eq⟩ | ⟨many, early, eq⟩ | ⟨many, late, noTrial, eq⟩
  all_goals simp only [World.ask, eq, if_true, Bool.false_eq_true, if_false]
  case inl =>
    have ⟨shut, same, noTrial, noTry⟩ := h.closed few
    refine ⟨fun _ => ⟨shut, same, ?_, noTry⟩, fun many => absurd few (not_lt.mpr many), h.failed,
      List.forall_mem_cons.mpr ⟨⟨fun _ => rfl, ?_, ?_, ?_⟩, h.right⟩⟩
    · exact (if_neg (not_le.mpr few)).trans noTrial
    · exact fun many => absurd few (not_lt.mpr many)
    · exact fun many => absurd few (not_lt.mpr many)
    · rw [noTry]
      exact nofun
  case inr.inl =>
    refine ⟨h.closed, h.opened, h.failed, List.forall_mem_cons.mpr ⟨⟨?_, fun _ _ => rfl, ?_, fun _ _ => rfl⟩, h.right⟩⟩
    · exact fun few => absurd few (not_lt.mpr many)
    · intro _ late
      exact absurd early (of_decide_eq_false late)
  case inr.inr =>
    refine ⟨fun few => absurd few (not_lt.mpr many), fun _ => ⟨le_rfl, .inr ⟨rfl, ?_, late⟩⟩, h.failed,
      List.forall_mem_cons.mpr ⟨⟨fun _ => rfl, ?_, ?_, ?_⟩, h.right⟩⟩
    · rw [if_pos many]
      exact Option.some_ne_none op
    · intro _ early
      exact absurd (of_decide_eq_true early) (not_lt.mpr late)
    · intro _ _
      rw [noTrial]
      exact ⟨fun _ => rfl, fun _ => rfl⟩
    · intro t since soon
      have ⟨t₀, failed, ago⟩ := Option.map_eq_some_iff.mp since
      have ⟨_, bound⟩ := h.failed failed
      have soon : s.now < t₀ + BREAKER_OPEN_MS := Int.lt_add_of_sub_left_lt (ago.symm ▸ soon)
      exact absurd (lt_of_lt_of_le soon bound) (not_lt.mpr late)

theorem Kept.reset (h : s.Kept) : ({ s with breaker := s.breaker.reset }.closed).Kept where
  closed _ := ⟨rfl, rfl, rfl, rfl⟩
  opened   := nofun
  failed   := nofun
  right    := h.right

variable [DecidableEq κ]

theorem Kept.succeed (h : s.Kept) : (s.succeed op).Kept where
  closed _ := ⟨rfl, rfl, rfl, rfl⟩
  opened   := nofun
  failed   := nofun
  right    := h.right

theorem Kept.fail (h : s.Kept) : (s.fail op error).Kept := by
  have count : BREAKER_FAILURES ≤ s.streak + 1 ↔ BREAKER_FAILURES ≤ s.breaker.failures + 1 := by
    rcases Nat.lt_or_ge s.streak BREAKER_FAILURES with few | many
    case inl => rw [(h.closed few).right.left]
    case inr => exact ⟨fun _ => (h.opened many).left, fun _ => by omega⟩
  by_cases enough : BREAKER_FAILURES ≤ s.breaker.failures + 1
  case pos =>
    have many := count.mpr enough
    refine ⟨fun few => absurd few (not_lt.mpr many), fun _ => ?_, ?_, h.right⟩
    · simp only [World.fail, State.imapFailed, if_pos enough]
      exact ⟨Nat.le_succ_of_le enough, .inl trivial⟩
    · intro t failed
      simp only [World.fail] at failed ⊢
      split at failed
      case isTrue  => cases failed; exact ⟨le_rfl, le_rfl⟩
      case isFalse =>
        have ⟨le, _⟩ := h.failed failed
        exact ⟨le, Int.add_le_add_right le _⟩
  case neg =>
    have few : s.streak < BREAKER_FAILURES := Nat.lt_of_succ_lt (not_le.mp (mt count.mp enough))
    have ⟨shut, same, noTrial, noTry⟩ := h.closed few
    refine ⟨fun _ => ?_, fun many => absurd (count.mp many) enough, ?_, h.right⟩
    · simp only [World.fail, State.imapFailed, if_neg enough, noTrial, noTry]
      exact ⟨shut, congrArg (· + 1) same, rfl, rfl⟩
    · simp [World.fail, noTrial, noTry]

theorem Kept.step (h : s.Kept) (alone : Alone s a) (hs : s.step a = some s') : s'.Kept := by
  cases a
  case reset =>
    cases hs
    exact h.reset
  case succeed op =>
    have ⟨_, eq⟩ := Option.ite_none_right_eq_some.mp hs
    exact Option.some.inj eq ▸ h.succeed
  case ask op at_ =>
    have ⟨⟨le, _⟩, eq⟩ := Option.ite_none_right_eq_some.mp hs
    exact Option.some.inj eq ▸ (h.later le).ask alone
  case fail op error at_ =>
    have ⟨⟨le, _⟩, eq⟩ := Option.ite_none_right_eq_some.mp hs
    exact Option.some.inj eq ▸ (h.later le).fail

-- Every operation that asks is answered rightly, as long as none asks while another one tries after a pause.
theorem reachable_right (h : operations.Reachable Alone s) : ∀ a ∈ s.asked, a.Right := by
  suffices s.Kept from this.right
  refine h.invariant (fun s ⟨now, start⟩ => ?_) fun _ _ _ kept alone step => kept.step alone step
  rw [start]
  exact ⟨fun _ => ⟨rfl, rfl, rfl, rfl⟩, nofun, nofun, nofun⟩

-- Three failures in a row.
def failures : List (Action String) :=
  [.ask "a" 0, .ask "b" 0, .ask "c" 0, .fail "a" "timeout" 0, .fail "b" "timeout" 1, .fail "c" "timeout" 2]

-- One operation is refused during the pause; the one let through after it fails, and the next is refused again.
theorem paused_right :
    ∃ s, operations.run Alone {} (failures ++
        [.ask "d" 3, .ask "d" 900002, .fail "d" "timeout" 900003, .ask "e" 900004]) = some s ∧
      s.asked.map (·.allowed) = [false, true, false, true, true, true] ∧ ∀ a ∈ s.asked, a.Right := by
  have answers : (operations.run Alone {} (failures ++
      [.ask "d" 3, .ask "d" 900002, .fail "d" "timeout" 900003, .ask "e" 900004])).map
        (·.asked.map (·.allowed)) = some [false, true, false, true, true, true] := by decide
  have ⟨s, hs, eq⟩ := Option.map_eq_some_iff.mp answers
  exact ⟨s, hs, eq, reachable_right (.run (.start ⟨0, rfl⟩) hs)⟩

-- Two jobs that ask after the pause are both let through.
theorem two_tries :
    ∃ s : World String, operations.Reachable (fun _ _ => True) s ∧ ∃ a ∈ s.asked,
      a = { allowed := true, streak := 3, paused := false, trying := true, sinceTry := none } ∧ ¬a.Right := by
  have answer : (operations.run (fun _ _ => True) {} (failures ++ [.ask "d" 900002, .ask "e" 900003])).map
      (·.asked.head?) = some (some { allowed := true, streak := 3, paused := false, trying := true, sinceTry := none }) := by
    decide
  have ⟨s, hs, eq⟩ := Option.map_eq_some_iff.mp answer
  refine ⟨s, .run (.start ⟨0, rfl⟩) hs, _, List.mem_of_mem_head? eq, rfl, fun right => ?_⟩
  cases (right.one le_rfl rfl).mp rfl

end World

end Kaluta.Transport
