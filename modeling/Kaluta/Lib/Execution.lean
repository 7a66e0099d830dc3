import Mathlib.Logic.Relation

-- A program whose parts take turns: the states it may start in, and what each action makes of a state in
-- which it can be taken.
structure System (σ : Type u) (α : Type v) where
  Start : σ → Prop
  step  : σ → α → Option σ

namespace System

variable {σ : Type u} {α : Type v} {sys : System σ α} {ok ok' : σ → α → Prop}

-- The states that runs lead to all of whose steps meet a condition.
inductive Reachable (sys : System σ α) (ok : σ → α → Prop) : σ → Prop
  | start : sys.Start s → Reachable sys ok s
  | step  : Reachable sys ok s → ok s a → sys.step s a = some s' → Reachable sys ok s'

variable {s s' : σ}

-- What holds at the start and is kept by each step holds in every state that is reached.
theorem Reachable.invariant {P : σ → Prop} (h : sys.Reachable ok s) (start : ∀ s, sys.Start s → P s)
    (step : ∀ s a s', P s → ok s a → sys.step s a = some s' → P s') : P s := by
  induction h
  case start hs         => exact start _ hs
  case step ha hs ih    => exact step _ _ _ ih ha hs

theorem Reachable.mono (h : sys.Reachable ok s) (weaker : ∀ s a, ok s a → ok' s a) :
    sys.Reachable ok' s := by
  induction h
  case start hs      => exact .start hs
  case step ha hs ih => exact .step ih (weaker _ _ ha) hs

-- What a state leads to by steps that all meet a condition.
def Leads (sys : System σ α) (ok : σ → α → Prop) : σ → σ → Prop :=
  Relation.ReflTransGen fun s s' => ∃ a, ok s a ∧ sys.step s a = some s'

theorem Leads.reachable (h : sys.Leads ok s s') (hs : sys.Reachable ok s) : sys.Reachable ok s' := by
  induction h
  case refl           => exact hs
  case tail _ step ih =>
    obtain ⟨a, ha, hs⟩ := step
    exact .step ih ha hs

theorem Leads.invariant {P : σ → Prop} (h : sys.Leads ok s s') (start : P s)
    (step : ∀ s a s', P s → ok s a → sys.step s a = some s' → P s') : P s' := by
  induction h
  case refl            => exact start
  case tail _ step' ih =>
    obtain ⟨a, ha, hs⟩ := step'
    exact step _ a _ ih ha hs

-- Takes actions one after another, as long as they meet the condition.
def run (sys : System σ α) (ok : σ → α → Prop) [∀ s a, Decidable (ok s a)] (s : σ) (as : List α) :
    Option σ :=
  as.foldlM (fun s a => if ok s a then sys.step s a else none) s

theorem Reachable.run [∀ s a, Decidable (ok s a)] {as : List α} (h : sys.Reachable ok s)
    (hs : sys.run ok s as = some s') : sys.Reachable ok s' := by
  induction as generalizing s
  case nil => cases hs; exact h
  case cons a as ih =>
    rw [System.run, List.foldlM_cons] at hs
    have ⟨s₁, h₁, hs⟩ := Option.bind_eq_some_iff.mp hs
    split at h₁
    case isTrue ha => exact ih (.step h ha h₁) hs
    case isFalse   => cases h₁

end System
