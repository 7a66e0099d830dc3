import Kaluta.Provider.Http
import Mathlib.Data.Finset.Basic
import Mathlib.Logic.Relation
import Mathlib.Algebra.GroupWithZero.Nat

-- A label change for many messages, some of which are gone on the server.
namespace Kaluta.Outbox

open Provider (ProviderError)

-- Adds and removes labels on a set of messages.
structure LabelOp where
  messageIds : List String
  add        : List String
  remove     : List String
  deriving DecidableEq

-- A provider: what labels each of its messages has, and what a call makes of them. It says that something is not found
-- only where a message of the batch is gone, and has changed nothing then.
structure MailProvider (σ L : Type) where
  labels       : σ → String → Option L
  change       : List String → List String → L → L
  modifyLabels : LabelOp → σ → Except ProviderError Unit × σ
  idempotent   : change add remove (change add remove l) = change add remove l
  applies      : modifyLabels op s = (.ok (), s') →
    labels s' = fun id => if id ∈ op.messageIds then (labels s id).map (change op.add op.remove) else labels s id
  refuses      : modifyLabels op s = (.error (.notFound what), s') →
    labels s' = labels s ∧ ∃ id ∈ op.messageIds, labels s id = none

namespace MailProvider

variable {σ L : Type} (p : MailProvider σ L)

def first (op : LabelOp) : LabelOp :=
  { op with messageIds := op.messageIds.take (op.messageIds.length / 2) }

def second (op : LabelOp) : LabelOp :=
  { op with messageIds := op.messageIds.drop (op.messageIds.length / 2) }

-- A round of the loop: what it goes on with, or what it returns. The top of the stack is its head.
def round : List LabelOp × σ → (List LabelOp × σ) ⊕ (Except ProviderError Unit × σ)
  | ([], s)            => .inr (.ok (), s)
  | (op :: pending, s) =>
    match p.modifyLabels op s with
    | (.ok (), s)              => .inl (pending, s)
    | (.error (.notFound _), s) =>
      if op.messageIds.length > 1 then .inl (first op :: second op :: pending, s) else .inl (pending, s)
    | (.error e, s)             => .inr (.error e, s)

-- What is left to be done: half of a batch counts less than the batch.
def weight (pending : List LabelOp) : Nat :=
  (pending.map fun op => max 1 (2 * op.messageIds.length - 1)).sum

theorem weight_round {loop next : List LabelOp × σ} (h : p.round loop = .inl next) : weight next.1 < weight loop.1 := by
  obtain ⟨_ | ⟨op, pending⟩, s⟩ := loop
  case nil  => cases h
  case cons =>
    rw [round] at h
    split at h
    case h_1 =>
      cases h
      simp [weight]
    case h_2 =>
      split_ifs at h with many <;> cases h
      · simp only [weight, first, second, List.map_cons, List.sum_cons, List.length_take, List.length_drop]
        omega
      · simp [weight]
    case h_3 => cases h

-- A NotFound for several ids is split in halves and each retried, down to the single missing ids, which are dropped.
def modifyLabelsPresent (loop : List LabelOp × σ) : Except ProviderError Unit × σ :=
  match _h : p.round loop with
  | .inl next => modifyLabelsPresent next
  | .inr done => done
  termination_by weight loop.1
  decreasing_by exact p.weight_round _h

variable {p} {op : LabelOp} {s s' : σ} {loop next : List LabelOp × σ}

-- Where the loop is with a change: each message has it, or has not yet, and none is left behind that is there.
structure Progress (p : MailProvider σ L) (op : LabelOp) (s : σ) (loop : List LabelOp × σ) : Prop where
  same   : ∀ o ∈ loop.1, o.add = op.add ∧ o.remove = op.remove
  within : ∀ o ∈ loop.1, ∀ id ∈ o.messageIds, id ∈ op.messageIds
  labels : ∀ id, p.labels loop.2 id = p.labels s id ∨
    id ∈ op.messageIds ∧ p.labels loop.2 id = (p.labels s id).map (p.change op.add op.remove)
  left   : ∀ id ∈ op.messageIds, p.labels s id = none ∨ (∃ o ∈ loop.1, id ∈ o.messageIds) ∨
    p.labels loop.2 id = (p.labels s id).map (p.change op.add op.remove)

theorem Progress.start : Progress p op s ([op], s) where
  same   := fun o mem => by cases List.mem_singleton.mp mem; exact ⟨rfl, rfl⟩
  within := fun o mem id named => by cases List.mem_singleton.mp mem; exact named
  labels := fun id => .inl rfl
  left   := fun id named => .inr (.inl ⟨op, List.mem_singleton_self op, named⟩)

theorem Progress.applied (h : Progress p op s (o :: pending, s₁)) (is : p.modifyLabels o s₁ = (.ok (), s₂)) :
    Progress p op s (pending, s₂) := by
  have ⟨add, remove⟩ := h.same o List.mem_cons_self
  have applied := p.applies is
  rw [add, remove] at applied
  have changed (id : String) (named : id ∈ o.messageIds) :
      p.labels s₂ id = (p.labels s id).map (p.change op.add op.remove) := by
    rw [applied]
    simp only [if_pos named]
    rcases h.labels id with eq | ⟨_, eq⟩
    · exact congrArg _ eq
    · rw [show p.labels s₁ id = _ from eq, Option.map_map]
      exact congrArg (Option.map · _) (funext fun _ => p.idempotent)
  have other (id : String) (named : id ∉ o.messageIds) : p.labels s₂ id = p.labels s₁ id := by
    rw [applied]
    exact if_neg named
  refine ⟨fun o mem => h.same o (List.mem_cons_of_mem _ mem),
    fun o mem => h.within o (List.mem_cons_of_mem _ mem), ?_, ?_⟩
  · intro id
    by_cases named : id ∈ o.messageIds
    · exact .inr ⟨h.within o List.mem_cons_self id named, changed id named⟩
    · exact other id named ▸ h.labels id
  · intro id wanted
    by_cases named : id ∈ o.messageIds
    · exact .inr (.inr (changed id named))
    · rcases h.left id wanted with none | ⟨o', mem, named'⟩ | done
      · exact .inl none
      · rcases List.mem_cons.mp mem with rfl | mem
        · exact absurd named' named
        · exact .inr (.inl ⟨o', mem, named'⟩)
      · exact .inr (.inr ((other id named).trans done))

theorem Progress.round (h : Progress p op s loop) (is : p.round loop = .inl next) : Progress p op s next := by
  obtain ⟨_ | ⟨o, pending⟩, s₁⟩ := loop
  case nil  => cases is
  case cons =>
    rw [MailProvider.round] at is
    split at is
    case h_1 s₂ call =>
      cases is
      exact h.applied call
    case h_2 s₂ _ call =>
      have ⟨unchanged, gone⟩ := p.refuses call
      split_ifs at is with many <;> cases is
      · -- What is in the batch is in one of its halves.
        have halves : ∀ id, id ∈ o.messageIds ↔ id ∈ (first o).messageIds ∨ id ∈ (second o).messageIds := by
          intro id
          rw [first, second, ← List.mem_append, List.take_append_drop]
        refine ⟨?_, ?_, fun id => unchanged ▸ h.labels id, fun id wanted => ?_⟩
        · simp only [List.forall_mem_cons]
          have own := h.same o List.mem_cons_self
          exact ⟨own, own, fun o' mem => h.same o' (List.mem_cons_of_mem o mem)⟩
        · simp only [List.forall_mem_cons]
          have own := h.within o List.mem_cons_self
          exact ⟨fun id mem => own id ((halves id).mpr (.inl mem)), fun id mem => own id ((halves id).mpr (.inr mem)),
            fun o' mem => h.within o' (List.mem_cons_of_mem o mem)⟩
        · rcases h.left id wanted with none | ⟨o', mem, named⟩ | done
          · exact .inl none
          · refine .inr (.inl ?_)
            rcases List.mem_cons.mp mem with rfl | mem
            · rcases (halves id).mp named with half | half
              · exact ⟨_, List.mem_cons_self, half⟩
              · exact ⟨_, List.mem_cons_of_mem _ List.mem_cons_self, half⟩
            · exact ⟨o', List.mem_cons_of_mem _ (List.mem_cons_of_mem _ mem), named⟩
          · exact .inr (.inr (unchanged ▸ done))
      · -- The only one is the one that is gone.
        obtain ⟨id, named, none⟩ := gone
        have only : ∀ id' ∈ o.messageIds, id' = id := by
          have := List.length_pos_of_mem named
          obtain ⟨a, eq⟩ := List.length_eq_one_iff.mp (show o.messageIds.length = 1 by omega)
          rw [eq] at named ⊢
          rw [List.mem_singleton.mp named]
          exact fun id' => List.mem_singleton.mp
        have never : p.labels s id = Option.none := by
          rcases h.labels id with eq | ⟨_, eq⟩
          · exact eq ▸ none
          · exact Option.map_eq_none_iff.mp (eq ▸ none)
        refine ⟨fun o mem => h.same o (List.mem_cons_of_mem _ mem),
          fun o mem => h.within o (List.mem_cons_of_mem _ mem), fun id => unchanged ▸ h.labels id, fun id' wanted => ?_⟩
        rcases h.left id' wanted with none | ⟨o', mem, named'⟩ | done
        · exact .inl none
        · rcases List.mem_cons.mp mem with rfl | mem
          · exact .inl (only id' named' ▸ never)
          · exact .inr (.inl ⟨o', mem, named'⟩)
        · exact .inr (.inr (unchanged ▸ done))
    case h_3 => cases is

-- The rounds of a loop.
def Rounds (p : MailProvider σ L) : List LabelOp × σ → List LabelOp × σ → Prop :=
  Relation.ReflTransGen fun loop next => p.round loop = .inl next

theorem Rounds.progress (h : Rounds p ([op], s) loop) : Progress p op s loop := by
  induction h
  case refl            => exact .start
  case tail _ round ih => exact ih.round round

theorem modifyLabelsPresent_inl (h : p.round loop = .inl next) :
    p.modifyLabelsPresent loop = p.modifyLabelsPresent next := by
  rw [modifyLabelsPresent]
  split
  case h_1 is => cases is.symm.trans h; rfl
  case h_2 is => cases is.symm.trans h

theorem modifyLabelsPresent_inr (h : p.round loop = .inr done) : p.modifyLabelsPresent loop = done := by
  rw [modifyLabelsPresent]
  split
  case h_1 is => cases is.symm.trans h
  case h_2 is => cases is.symm.trans h; rfl

theorem Rounds.eq (h : Rounds p loop next) : p.modifyLabelsPresent loop = p.modifyLabelsPresent next := by
  induction h
  case refl            => rfl
  case tail _ round ih => exact ih.trans (modifyLabelsPresent_inl round)

-- The loop comes to its last round.
theorem exists_last (p : MailProvider σ L) (loop : List LabelOp × σ) :
    ∃ last, Rounds p loop last ∧ p.round last = .inr (p.modifyLabelsPresent loop) := by
  induction loop using modifyLabelsPresent.induct p
  case case1 loop next round ih =>
    obtain ⟨last, rounds, is⟩ := ih
    exact ⟨last, .head round rounds, modifyLabelsPresent_inl round ▸ is⟩
  case case2 loop done round =>
    exact ⟨loop, .refl, modifyLabelsPresent_inr round ▸ round⟩

theorem round_inr {done : Except ProviderError Unit × σ} (h : p.round loop = .inr done) :
    (loop.1 = [] ∧ done = (.ok (), loop.2)) ∨
    ∃ o pending e, loop.1 = o :: pending ∧ p.modifyLabels o loop.2 = (.error e, done.2) ∧ done.1 = .error e ∧
      ∀ what, e ≠ .notFound what := by
  obtain ⟨_ | ⟨o, pending⟩, s₁⟩ := loop
  case nil =>
    cases h
    exact .inl ⟨rfl, rfl⟩
  case cons =>
    rw [round] at h
    split at h
    case h_1 => cases h
    case h_2 => split_ifs at h
    case h_3 e s₂ other call =>
      cases h
      exact .inr ⟨o, pending, e, rfl, call, rfl, other⟩

theorem round_error (call : p.modifyLabels op s = (.error e, s')) (other : ∀ what, e ≠ .notFound what) :
    p.round (op :: pending, s) = .inr (.error e, s') := by
  rw [round, call]
  cases e
  case notFound what => exact absurd rfl (other what)
  all_goals rfl

-- A change for many messages that succeeds is made to all that are there, and to nothing else. It never fails because
-- something is not found; and it fails just as a call of its fails for another reason.
theorem modifyLabelsPresent_changes (p : MailProvider σ L) (op : LabelOp) (s : σ) :
    let (result, s') := p.modifyLabelsPresent ([op], s)
    (result = .ok () → p.labels s' = fun id =>
      if id ∈ op.messageIds then (p.labels s id).map (p.change op.add op.remove) else p.labels s id) ∧
    (∀ what, result ≠ .error (.notFound what)) ∧
    (∀ o pending s₁ e s₂, Rounds p ([op], s) (o :: pending, s₁) → p.modifyLabels o s₁ = (.error e, s₂) →
      (∀ what, e ≠ .notFound what) → result = .error e ∧ s' = s₂) ∧
    ∀ e, result = .error e → ∃ o pending s₁, Rounds p ([op], s) (o :: pending, s₁) ∧
      p.modifyLabels o s₁ = (.error e, s') := by
  obtain ⟨last, rounds, is⟩ := exists_last p ([op], s)
  have called {o : LabelOp} {pending : List LabelOp} {s₁ s₂ : σ} {e : ProviderError}
      (rounds : Rounds p ([op], s) (o :: pending, s₁)) (call : p.modifyLabels o s₁ = (.error e, s₂))
      (other : ∀ what, e ≠ .notFound what) : p.modifyLabelsPresent ([op], s) = (.error e, s₂) :=
    rounds.eq.trans (modifyLabelsPresent_inr (round_error call other))
  generalize p.modifyLabelsPresent ([op], s) = done at is called
  obtain ⟨result, s'⟩ := done
  have fails : ∀ o pending s₁ e s₂, Rounds p ([op], s) (o :: pending, s₁) → p.modifyLabels o s₁ = (.error e, s₂) →
      (∀ what, e ≠ .notFound what) → result = .error e ∧ s' = s₂ := by
    intro o pending s₁ e s₂ rounds call other
    cases called rounds call other
    exact ⟨rfl, rfl⟩
  have progress := rounds.progress
  obtain ⟨pending, s₁⟩ := last
  rcases round_inr is with ⟨rfl, eq⟩ | ⟨o, pending, e, rfl, call, rfl, other⟩
  · cases eq
    refine ⟨fun _ => funext fun id => ?_, nofun, fails, nofun⟩
    split
    case isTrue wanted =>
      rcases progress.left id wanted with none | ⟨_, mem, _⟩ | done
      · rcases progress.labels id with eq | ⟨_, eq⟩
        · rw [none] at eq ⊢
          exact eq
        · exact eq
      · cases mem
      · exact done
    case isFalse unwanted =>
      exact (progress.labels id).resolve_right fun changed => unwanted changed.left
  · refine ⟨nofun, fun what eq => ?_, fails, fun e' eq => ?_⟩
    · cases eq
      exact other what rfl
    · cases eq
      exact ⟨o, pending, s₁, rounds, call⟩

-- The provider of the tests, which names the first message that is gone.
def fake : MailProvider (String → Option (Finset String)) (Finset String) where
  labels s             := s
  change add remove l  := (l \ remove.toFinset) ∪ add.toFinset
  modifyLabels op s    :=
    match op.messageIds.find? fun id => s id = none with
    | some id => (.error (.notFound id), s)
    | none    => (.ok (), fun id =>
      if id ∈ op.messageIds then (s id).map (fun l => (l \ op.remove.toFinset) ∪ op.add.toFinset) else s id)
  idempotent           := by
    intro add remove l
    ext label
    simp only [Finset.mem_union, Finset.mem_sdiff]
    tauto
  applies is           := by
    split at is <;> cases is
    rfl
  refuses is           := by
    split at is <;> cases is
    case h_1 _ found =>
      exact ⟨rfl, _, List.mem_of_find?_eq_some found, by simpa using List.find?_some found⟩

example :
    let s : String → Option (Finset String) := fun id => if id = "b" then none else some {"INBOX"}
    let op : LabelOp := { messageIds := ["a", "b", "c"], add := [], remove := ["INBOX"] }
    let (_, s') := fake.modifyLabelsPresent ([op], s)
    ["a", "b", "c", "d"].map s' = [some ∅, none, some ∅, some {"INBOX"}] := by
  decide +kernel

end MailProvider

end Kaluta.Outbox
