import Kaluta.Lib.Execution
import Kaluta.Lib.Table
import Kaluta.Provider.Http

-- A queued send, and the drainers that attempt it.
namespace Kaluta.Outbox

open Provider (ProviderError)

def MAX_ATTEMPTS : Nat := 5

inductive OpState
  | pending
  | inFlight (claimedBy : Nat)
  | failed
  deriving DecidableEq

structure Op where
  state    : OpState := .pending
  attempts : Nat := 0
  deriving DecidableEq

inductive DraftState
  | sending
  | failed
  | discarded
  deriving DecidableEq

-- Where a drainer is with the send it claimed.
inductive Phase
  -- Asks the provider for an earlier attempt.
  | looking
  | sending
  -- What its call came to: nothing if the message is sent.
  | answered (error : Option ProviderError)
  deriving DecidableEq

structure Drainer where
  id       : Nat
  -- The attempts before, as the claim read them.
  attempts : Nat
  phase    : Phase
  deriving DecidableEq

structure State where
  -- Completed ops are deleted.
  op       : Option Op := some {}
  -- The optimistic copy in Sent.
  copy     : Bool := true
  draft    : DraftState := .sending
  drainers : Table Drainer Drainer.id := ∅
  -- How many attempts took effect at the provider.
  taken    : Nat := 0

-- What becomes of an attempt.
inductive Outcome
  | sent
  | refused (error : ProviderError)
  -- The connection is lost, before or after the provider took the message.
  | lost (error : ProviderError) (taken : Bool)

-- A dropped connection, mid body too.
def connectionLost : ProviderError → Bool
  | .network | .decode => true
  | _                  => false

inductive Action
  -- Its claimant is gone or its lease ran out.
  | recover
  | claim (drainer : Nat)
  -- The lookup fails, or tells whether an attempt took effect.
  | look (drainer : Nat) (error : Option ProviderError)
  | send (drainer : Nat) (outcome : Outcome)
  | record (drainer : Nat)
  | crash (drainer : Nat)

namespace State

variable (s : State)

def put (d : Drainer) (phase : Phase) : State :=
  { s with drainers := s.drainers.replace { d with phase } }

def drop (d : Drainer) : State :=
  { s with drainers := s.drainers.delete (·.id = d.id) }

def holds (d : Drainer) : Bool :=
  s.op.any (·.state = .inFlight d.id)

def complete : State :=
  { s with op := none, draft := .discarded }

def retryLater : State :=
  { s with op := s.op.map fun op => { op with state := .pending, attempts := op.attempts + 1 } }

-- The optimistic copy goes, and the draft comes back with the error.
def fail : State :=
  { s with op := s.op.map fun op => { op with state := .failed }, copy := false, draft := .failed }

def retries (d : Drainer) (error : ProviderError) : Bool :=
  error.isTransient ∧ d.attempts + 1 < MAX_ATTEMPTS

-- The outcome is recorded only while the claim is still the drainer's.
def record (d : Drainer) (error : Option ProviderError) : State :=
  if ¬s.holds d then s
  else match error with
    | none   => s.complete
    | some e => if retries d e then s.retryLater else s.fail

def step : Action → Option State
  | .recover =>
    match s.op with
    | some ⟨.inFlight _, attempts⟩ => some { s with op := some { state := .pending, attempts := attempts + 1 } }
    | _                            => none
  | .claim drainer =>
    match s.op with
    | some ⟨.pending, attempts⟩ => do
      let phase := if attempts > 0 then .looking else .sending
      some { s with
        op       := some { state := .inFlight drainer, attempts }
        drainers := ← s.drainers.insert? { id := drainer, attempts, phase } }
    | _                         => none
  | .look drainer error => do
    let d ← s.drainers.find? drainer
    match d.phase, error with
    | .looking, some e => some (s.put d (.answered (some e)))
    | .looking, none   => some (s.put d (if s.taken > 0 then .answered none else .sending))
    | _       , _      => none
  | .send drainer outcome => do
    let d ← s.drainers.find? drainer
    match d.phase, outcome with
    | .sending, .sent         => some ({ s with taken := s.taken + 1 }.put d (.answered none))
    | .sending, .refused e    => if connectionLost e then none else some (s.put d (.answered (some e)))
    | .sending, .lost e taken =>
      if connectionLost e then
        some ({ s with taken := s.taken + if taken then 1 else 0 }.put d (.answered (some e)))
      else none
    | _       , _             => none
  | .record drainer => do
    let d ← s.drainers.find? drainer
    match d.phase with
    | .answered error => some ((s.record d error).drop d)
    | _               => none
  | .crash drainer => do
    let d ← s.drainers.find? drainer
    some (s.drop d)

end State

def sending : System State Action where
  Start s := s = {}
  step    := State.step

end Kaluta.Outbox

-- A send that is reported as failed was not sent, and when.
namespace Kaluta.Outbox

open Provider (ProviderError)

variable {s s' t : State} {d d' : Drainer} {phase : Phase}

-- The op is marked failed, its optimistic copy is gone and its draft is given back: no attempt took effect.
def State.NotSent (s : State) : Prop :=
  ∀ op, s.op = some op → op.state = .failed → s.copy = false → s.draft = .failed → s.taken = 0

-- The provider takes no message from a drainer that lost its claim, or from the last attempt allowed and the answer
-- is lost; and once it has taken one, no lookup fails for good or in the last attempt allowed.
def State.Retried (s : State) : Action → Prop
  | .look id (some e) => ∀ d ∈ s.drainers.rows, d.id = id → s.taken > 0 → State.retries d e
  | .send id outcome  => ∀ d ∈ s.drainers.rows, d.id = id →
      match outcome with
      | .sent        => s.holds d
      | .lost e true => s.holds d ∧ State.retries d e
      | _            => True
  | _                 => True

instance (s : State) : DecidablePred s.Retried
  | .look _ (some _)        => inferInstanceAs (Decidable (∀ d ∈ s.drainers.rows, _ → _ → _))
  | .look _ none            => inferInstanceAs (Decidable True)
  | .send _ .sent           => inferInstanceAs (Decidable (∀ d ∈ s.drainers.rows, _ → _))
  | .send _ (.refused _)    => inferInstanceAs (Decidable (∀ d ∈ s.drainers.rows, _ → True))
  | .send _ (.lost _ true)  => inferInstanceAs (Decidable (∀ d ∈ s.drainers.rows, _ → _ ∧ _))
  | .send _ (.lost _ false) => inferInstanceAs (Decidable (∀ d ∈ s.drainers.rows, _ → True))
  | .recover                => inferInstanceAs (Decidable True)
  | .claim _                => inferInstanceAs (Decidable True)
  | .record _               => inferInstanceAs (Decidable True)
  | .crash _                => inferInstanceAs (Decidable True)

-- What a drainer that holds the op knows.
def Drainer.Knows (d : Drainer) (taken : Nat) : Prop :=
  match d.phase with
  | .looking           => True
  | .sending           => taken = 0
  | .answered none     => True
  | .answered (some e) => State.retries d e = false → taken = 0

structure State.Inv (s : State) : Prop where
  failed  : ∀ op, s.op = some op → op.state = .failed → s.taken = 0
  untried : ∀ op, s.op = some op → op.state = .pending → op.attempts = 0 → s.taken = 0
  held    : ∀ d ∈ s.drainers, s.holds d → d.Knows s.taken

namespace State

theorem holds_iff : s.holds d ↔ ∃ attempts, s.op = some ⟨.inFlight d.id, attempts⟩ := by
  unfold holds
  cases s.op with
  | none    => simp
  | some op => cases op; simp

-- The holder goes on, or another drainer: who else holds the op knows what it knew.
theorem Inv.put (h : s.Inv) (op : t.op = s.op) (drainers : t.drainers = s.drainers)
    (taken : t.taken = s.taken ∨ s.holds d) (knows : s.holds d → Drainer.Knows { d with phase } t.taken) :
    (t.put d phase).Inv := by
  have idle : ∀ op, s.op = some op → (∀ id, op.state ≠ .inFlight id) → t.taken = s.taken := by
    intro op eq ne
    refine taken.resolve_right fun holds => ?_
    obtain ⟨attempts, eq'⟩ := holds_iff.mp holds
    cases eq.symm.trans eq'
    exact ne _ rfl
  constructor
  case failed =>
    intro op' eq state
    have eq : s.op = some op' := op.symm.trans eq
    exact (idle op' eq (by simp [state])).trans (h.failed op' eq state)
  case untried =>
    intro op' eq state first
    have eq : s.op = some op' := op.symm.trans eq
    exact (idle op' eq (by simp [state])).trans (h.untried op' eq state first)
  case held =>
    intro d' mem holds
    have holds : s.holds d' := by
      unfold State.holds at *
      rwa [show (t.put d phase).op = s.op from op] at holds
    obtain ⟨mem, ne⟩ | rfl := Table.mem_replace.mp mem
    case inr => exact knows holds
    have same : t.taken = s.taken := by
      refine taken.resolve_right fun holds' => ?_
      obtain ⟨_, eq⟩ := holds_iff.mp holds
      obtain ⟨_, eq'⟩ := holds_iff.mp holds'
      have : some (Op.mk (.inFlight d'.id) _) = some _ := eq.symm.trans eq'
      simp only [Option.some.injEq, Op.mk.injEq, OpState.inFlight.injEq] at this
      exact ne this.1
    show d'.Knows t.taken
    rw [same]
    exact h.held d' (drainers ▸ mem) holds

-- The op leaves the drainers that there are: nobody of them holds it.
theorem Inv.released (held : ∀ d ∈ t.drainers, t.holds d = false)
    (failed : ∀ op, t.op = some op → op.state = .failed → t.taken = 0)
    (untried : ∀ op, t.op = some op → op.state = .pending → op.attempts = 0 → t.taken = 0) : t.Inv :=
  ⟨failed, untried, fun d mem holds => by rw [held d mem] at holds; cases holds⟩

theorem Inv.drop (h : s.Inv) (d : Drainer) : (s.drop d).Inv :=
  ⟨h.failed, h.untried, fun d' mem holds => h.held d' (Table.mem_delete.mp mem).1 holds⟩

theorem Inv.record {error : Option ProviderError} (h : s.Inv) (mem : d ∈ s.drainers)
    (answered : d.phase = .answered error) : (s.record d error).Inv := by
  unfold State.record
  split
  case isTrue          => exact h
  case isFalse holding =>
    have holds : s.holds d := by simpa using holding
    obtain ⟨attempts, op⟩ := holds_iff.mp holds
    have knows := h.held d mem holds
    split
    case _ =>
      apply Inv.released <;> simp [complete, State.holds]
    case _ e =>
      split
      case isTrue => apply Inv.released <;> simp [retryLater, State.holds, op]
      case isFalse final =>
        have none_ : s.taken = 0 := by
          simp only [Drainer.Knows, answered] at knows
          exact knows (by simpa using final)
        apply Inv.released <;> simp [State.fail, State.holds, op, none_]

theorem Inv.step {a : Action} (h : s.Inv) (ok : s.Retried a) (hs : s.step a = some s') : s'.Inv := by
  cases a <;> simp only [State.step] at hs
  case recover =>
    split at hs
    case _ op => cases hs; apply Inv.released <;> simp [State.holds]
    case _    => cases hs
  case claim id =>
    split at hs
    case _ attempts op =>
      obtain ⟨drainers, inserted, hs⟩ := Option.bind_eq_some_iff.mp hs
      cases hs
      refine ⟨by simp, by simp, fun d mem holds => ?_⟩
      obtain old | rfl := (Table.mem_insert? inserted).mp mem
      case inl =>
        obtain ⟨_, eq⟩ := holds_iff.mp holds
        obtain ⟨fresh, _⟩ := Table.insert?_eq_some.mp inserted
        simp only [Option.some.injEq, Op.mk.injEq, OpState.inFlight.injEq] at eq
        exact absurd eq.1.symm (fresh d old)
      case inr =>
        by_cases tried : attempts > 0
        case pos => simp [Drainer.Knows, tried]
        case neg => simpa [Drainer.Knows, tried] using h.untried _ op rfl (by simpa using tried)
    case _ => cases hs
  all_goals
    obtain ⟨d, found, act⟩ := Option.bind_eq_some_iff.mp hs
    have mem := Table.find?_mem found
    obtain rfl := Table.find?_key_eq found
  case look error =>
    split at act
    case _ e phase =>
      cases act
      refine h.put rfl rfl (.inl rfl) fun holds final => ?_
      by_contra earlier
      exact absurd (ok d mem rfl (Nat.pos_of_ne_zero earlier)) (by simpa [retries] using final)
    case _ phase =>
      cases act
      refine h.put rfl rfl (.inl rfl) fun holds => ?_
      by_cases taken : s.taken > 0
      case pos => simp [Drainer.Knows, taken]
      case neg => simpa only [Drainer.Knows, if_neg taken] using Nat.eq_zero_of_not_pos taken
    case _ => cases act
  case send outcome =>
    by_cases phase : d.phase = .sending
    case neg => cases outcome <;> simp_all
    replace ok := ok d mem rfl
    have knows : s.holds d → s.taken = 0 := fun holds => by simpa only [Drainer.Knows, phase] using h.held d mem holds
    rw [phase] at act
    cases outcome
    case sent => cases act; exact h.put rfl rfl (.inr ok) fun _ => trivial
    case refused e =>
      dsimp only at act
      split at act
      case isTrue  => cases act
      case isFalse => cases act; exact h.put rfl rfl (.inl rfl) fun holds _ => knows holds
    case lost e taken =>
      dsimp only at act
      split at act
      case isFalse => cases act
      case isTrue =>
        cases act
        cases taken
        case false => exact h.put rfl rfl (.inl rfl) fun holds _ => knows holds
        case true  => exact h.put rfl rfl (.inr ok.1) fun _ final => absurd ok.2 (by simpa [retries] using final)
  case record =>
    split at act
    case _ error phase => cases act; exact (h.record mem phase).drop d
    case _             => cases act
  case crash => cases act; exact h.drop d

theorem reachable_not_sent (h : sending.Reachable Retried s) : s.NotSent := by
  have inv : s.Inv := by
    apply h.invariant
    case start => rintro s rfl; exact ⟨fun _ _ _ => rfl, fun _ _ _ _ => rfl, nofun⟩
    case step  => exact fun _ _ _ h ok hs => h.step ok hs
  exact fun op eq state _ _ => inv.failed op eq state

end State

-- An attempt of a drainer, and what becomes of it.
def attempt (outcome : Outcome) : List Action :=
  [.claim 1, .send 1 outcome, .record 1]

def retry (outcome : Outcome) : List Action :=
  [.claim 1, .look 1 none, .send 1 outcome, .record 1]

-- The provider refuses the send after an attempt whose connection was lost.
theorem reachable_not_sent_refused : ∃ s : State, s.NotSent ∧ s.op = some ⟨.failed, 1⟩ ∧ s.taken = 0 := by
  have run : (sending.run State.Retried {} (attempt (.lost .network false) ++ retry (.refused (.forbidden "no")))).any
      fun s => s.op = some ⟨.failed, 1⟩ ∧ s.taken = 0 := by decide
  obtain ⟨s, hs, failed⟩ := (Option.any_eq_true _ _).mp run
  exact ⟨s, State.reachable_not_sent (.run (.start rfl) hs), of_decide_eq_true failed⟩

-- Four attempts are lost before the provider takes the message, and the fifth one after it.
theorem sent_and_failed : ¬∀ s, sending.Reachable (fun _ _ => True) s → s.NotSent := by
  intro claim
  have run : (sending.run (fun _ _ => True) {} (attempt (.lost .network false) ++ retry (.lost .network false) ++
      retry (.lost .network false) ++ retry (.lost .network false) ++ retry (.lost .network true))).any
        fun s => s.op = some ⟨.failed, 4⟩ ∧ s.copy = false ∧ s.draft = .failed ∧ s.taken = 1 := by decide
  obtain ⟨s, hs, failed⟩ := (Option.any_eq_true _ _).mp run
  obtain ⟨op, copy, draft, taken⟩ := of_decide_eq_true failed
  have := claim s (.run (.start rfl) hs) _ op rfl copy draft
  rw [taken] at this
  cases this

end Kaluta.Outbox
