import Kaluta.Agents.SignUp

-- When no sign-up makes a stored key invalid.
namespace Kaluta.Agents.Creation

open Guide (Unicode ascii toLowercase eqIgnoreAsciiCase trim cleanText)

section Kept

variable [Unicode] {s s' : State} {c c' : Call} {a : String} {phase : Phase}

-- A key of a mailbox on disk whose service account names the address that the key was given for.
def State.Finished (s : State) (k : String × Key) : Prop :=
  match k.2 with
  | .agentMail email _ =>
    ∃ agent ∈ s.agentsOnDisk, agent.2.serviceAccount = k.1 ∧ ∃ r ∈ s.readService k.1, r.service = .agentMail ∧
      r.humanEmail = some email
  | .primitive => True

-- An address is spelled as a key's is, but for the case of ASCII's letters.
def Key.Spelled (email : String) : Key → Prop
  | .agentMail email' _ => eqIgnoreAsciiCase (trim email') (trim email)
  | .primitive          => True

-- A call begins while no other for its request or address is going on,
-- and no key of the address under another request is of an unfinished creation or of another spelling.
def State.Cond (s : State) : Action → Prop
  | .call service _ humanEmail requestId =>
    let email := ((humanEmail.map trim).filter (· ≠ "")).getD ""
    (∀ c ∈ s.calls.rows, c.requestId ≠ requestId ∧ (service = .agentMail → c.signs ≠ some (toLowercase email))) ∧
    (service = .agentMail → s.readMeta requestId = none → ∀ k ∈ s.keys.rows, k.2.signs = some (toLowercase email) →
      k.1 ≠ requestId → s.Finished k ∧ k.2.Spelled email)
  | _ => True

-- No key is stored for the address that a call signs up.
def State.Unsigned (s : State) (c : Call) : Prop :=
  ∀ a, c.signs = some a → ∀ k ∈ s.keys, k.2.signs ≠ some a

-- What a call knows of the keys of its address.
def State.Knows (s : State) (c : Call) : Prop :=
  match c.phase with
  | .tested => ∀ a, c.signs = some a → ∀ k ∈ s.keys, k.2.signs = some a →
      k.1 = c.requestId ∧ (s.pending c.requestId).isSome = true
  | .signing              => s.Unsigned c
  | .signedUp _ key       => s.Unsigned c ∧ key = s.given c
  | .pendingWritten _ key => s.Unsigned c ∧ key = s.given c
  | _                     => True

def Call.Apart (c c' : Call) : Prop :=
  c.requestId ≠ c'.requestId ∧ ∀ a, c.signs = some a → c'.signs ≠ some a

structure State.Inv (s : State) : Prop where
  apart : ∀ c ∈ s.calls, ∀ c' ∈ s.calls, c.id ≠ c'.id → c.Apart c'
  knows : ∀ c ∈ s.calls, s.Knows c
  works : ∀ k ∈ s.keys, s.works k.2 = true
  once  : s.repeated = false
  old   : ∀ c ∈ s.calls, c.id < s.next

-- What a step of one call may change.
structure Moves (c : Call) (s t : State) : Prop where
  calls   : t.calls = s.calls
  next    : t.next = s.next
  keys    : ∀ k ∈ t.keys, k ∈ s.keys ∨ k.2.signs = c.signs
  pending : ∀ r, r ≠ c.requestId → t.pending r = s.pending r
  signUps : ∀ a, c.signs ≠ some a → t.signUps a = s.signUps a
  works   : ∀ k ∈ t.keys, t.works k.2 = true
  once    : t.repeated = false

variable {t : State}

theorem Moves.unsigned (moves : Moves c s t) (apart : c.Apart c') (unsigned : s.Unsigned c') : t.Unsigned c' := by
  intro a signs k mem
  rcases moves.keys k mem with mem | own
  · exact unsigned a signs k mem
  · exact fun eq => apart.2 a (own.symm.trans eq) signs

theorem Moves.given (moves : Moves c s t) (apart : c.Apart c') : t.given c' = s.given c' := by
  unfold State.given
  split
  case h_1 email service address =>
    have signs : c'.signs = some (toLowercase email) := by simp only [Call.signs, service, address]
    rw [moves.signUps _ fun own => apart.2 _ own signs]
  case h_2 => rfl

-- A step of one call leaves what the others know.
theorem Moves.knows (moves : Moves c s t) (apart : c.Apart c') (knows : s.Knows c') : t.Knows c' := by
  unfold State.Knows at knows ⊢
  cases phase : c'.phase with
  | tested =>
    rw [phase] at knows
    intro a signs k mem stored
    rw [moves.pending _ apart.1.symm]
    rcases moves.keys k mem with mem | own
    · exact knows a signs k mem stored
    · exact absurd signs (apart.2 a (own.symm.trans stored))
  | signing => exact moves.unsigned apart (by rwa [phase] at knows)
  | signedUp _ key =>
    rw [phase] at knows
    exact ⟨moves.unsigned apart knows.1, knows.2.trans (moves.given apart).symm⟩
  | pendingWritten _ key =>
    rw [phase] at knows
    exact ⟨moves.unsigned apart knows.1, knows.2.trans (moves.given apart).symm⟩
  | keyed _    => trivial
  | recorded _ => trivial
  | stored _   => trivial
  | finished   => trivial

namespace State

theorem Inv.of_moves (inv : s.Inv) (mem : c ∈ s.calls) (moves : Moves c s t)
    (calls : ∀ d ∈ s'.calls, (d ∈ s.calls ∧ d.id ≠ c.id) ∨ ∃ phase, d = { c with phase } ∧ t.Knows d)
    (same : s' = { t with calls := s'.calls }) : s'.Inv := by
  have own {d : Call} (h : ∃ phase, d = { c with phase } ∧ t.Knows d) :
      d.id = c.id ∧ d.requestId = c.requestId ∧ d.signs = c.signs := by
    obtain ⟨_, rfl, -⟩ := h
    exact ⟨rfl, rfl, rfl⟩
  rw [same]
  refine ⟨fun d hd d' hd' ne => ?_, fun d hd => ?_, moves.works, moves.once, fun d hd => ?_⟩
  · rcases calls d hd with ⟨hd, other⟩ | hd <;> rcases calls d' hd' with ⟨hd', other'⟩ | hd'
    · exact inv.apart d hd d' hd' ne
    · obtain ⟨id, request, signs⟩ := own hd'
      have := inv.apart d hd c mem other
      exact ⟨request ▸ this.1, signs ▸ this.2⟩
    · obtain ⟨id, request, signs⟩ := own hd
      have := inv.apart c mem d' hd' (Ne.symm other')
      exact ⟨request ▸ this.1, signs ▸ this.2⟩
    · exact absurd ((own hd).1.trans (own hd').1.symm) ne
  · rcases calls d hd with ⟨hd, other⟩ | ⟨_, rfl, knows⟩
    · exact moves.knows (inv.apart c mem d hd (Ne.symm other)) (inv.knows d hd)
    · exact knows
  · rw [show ({ t with calls := s'.calls } : State).next = s.next from moves.next]
    rcases calls d hd with ⟨hd, other⟩ | hd
    · exact inv.old d hd
    · exact (own hd).1 ▸ inv.old c mem

theorem Inv.put (inv : s.Inv) (mem : c ∈ s.calls) (moves : Moves c s t) (knows : t.Knows { c with phase }) :
    (t.put c phase).Inv := by
  refine inv.of_moves mem moves (fun d hd => ?_) rfl
  simp only [State.put, Table.mem_replace, moves.calls] at hd
  exact hd.imp_right fun eq => ⟨phase, eq, eq ▸ knows⟩

theorem Inv.drop (inv : s.Inv) (mem : c ∈ s.calls) (moves : Moves c s t) : (t.drop c).Inv := by
  refine inv.of_moves mem moves (fun d hd => ?_) rfl
  simp only [State.drop, Table.mem_delete, moves.calls, decide_eq_false_iff_not] at hd
  exact .inl hd

-- A step that changes nothing but how far a call is.
theorem Inv.stay (inv : s.Inv) : Moves c s s :=
  ⟨rfl, rfl, fun _ => .inl, fun _ _ => rfl, fun _ _ => rfl, inv.works, inv.once⟩

theorem given_signs : (s.given c).signs = c.signs := by
  unfold State.given Call.signs
  split <;> simp_all [Key.signs]

theorem given_works : s.works (s.given c) = true := by
  unfold State.given
  split <;> simp [State.works]

theorem sent_signUps (ne : c.signs ≠ some a) : (s.sent c).signUps a = s.signUps a := by
  cases own : c.signs with
  | none   => simp only [State.sent, own]
  | some b =>
    simp only [State.sent, own]
    exact Function.update_of_ne (fun eq => ne (own.trans (congrArg some eq.symm))) _ _

-- A sign-up of an address that no key is stored for.
theorem Inv.sent (inv : s.Inv) (unsigned : s.Unsigned c) : Moves c s (s.sent c) where
  calls   := rfl
  next    := rfl
  keys    := fun _ => .inl
  pending := fun _ _ => rfl
  signUps := fun _ => sent_signUps
  works k mem := by
    have works := inv.works k mem
    cases key : k.2 with
    | primitive => rfl
    | agentMail email n =>
      rw [key] at works
      have ne : c.signs ≠ some (toLowercase email) := fun own => unsigned _ own k mem (by rw [key]; rfl)
      rwa [State.works, sent_signUps ne]
  once := by
    unfold State.sent
    dsimp only
    rw [inv.once]
    cases own : c.signs with
    | none   => rfl
    | some a =>
      simp only [Bool.false_eq_true, false_or, Option.isSome_some, true_and, decide_eq_false_iff_not, Bool.not_eq_true]
      exact List.any_eq_false.mpr fun k mem h => unsigned a own k mem (of_decide_eq_true h).1

-- A step that writes a file which no sign-up is decided by.
theorem Inv.files (inv : s.Inv) {metas : Table (String × AgentMeta) Prod.fst} {services : String → Option ServiceMeta} :
    Moves c s { s with metas, services } :=
  ⟨rfl, rfl, fun _ => .inl, fun _ _ => rfl, fun _ _ => rfl, inv.works, inv.once⟩

theorem Inv.pending (inv : s.Inv) {pending : Option PendingSignUp} :
    Moves c s { s with pending := Function.update s.pending c.requestId pending } :=
  ⟨rfl, rfl, fun _ => .inl, fun _ ne => Function.update_of_ne ne _ _, fun _ _ => rfl, inv.works, inv.once⟩

theorem Inv.key (inv : s.Inv) : Moves c s { s with keys := s.keys.replace (c.requestId, s.given c) } := by
  refine ⟨rfl, rfl, fun k mem => ?_, fun _ _ => rfl, fun _ _ => rfl, fun k mem => ?_, inv.once⟩
  · rcases Table.mem_replace.mp mem with ⟨mem, -⟩ | rfl
    · exact .inl mem
    · exact .inr given_signs
  · rcases Table.mem_replace.mp mem with ⟨mem, -⟩ | rfl
    · exact inv.works k mem
    · exact given_works

-- The call looks for what an earlier one left: no key of its address is stored when it goes on to sign up.
theorem Inv.look (inv : s.Inv) (mem : c ∈ s.calls) {id : Nat} {ok : Bool} (tested : c.phase = .tested)
    (step : s.act c .tested (.look id ok) = some s') : s'.Inv := by
  have knows := inv.knows c mem
  unfold State.Knows at knows
  rw [tested] at knows
  simp only [State.act] at step
  have sign (free : ∀ a, c.signs = some a → ∀ k ∈ s.keys, k.2.signs = some a → False) : (s.put c .signing).Inv :=
    inv.put mem inv.stay fun a signs k mem stored => free a signs k mem stored
  split at step
  case h_1 pending found =>
    split at step
    case isTrue => cases step; exact inv.drop mem inv.stay
    case isFalse =>
      split at step
      case isTrue => cases step; exact inv.put mem inv.stay trivial
      case isFalse fresh =>
        cases step
        refine sign fun a signs k key stored => fresh ⟨?_, ?_⟩
        · unfold Call.signs at signs
          split at signs
          case h_1 service _ => exact service
          case h_2 => cases signs
        · rw [← (knows a signs k key stored).1, Table.find?_key key]
          rfl
  case h_2 none =>
    split at step
    case isFalse => cases step; exact inv.drop mem inv.stay
    case isTrue =>
      cases step
      refine sign fun a signs k key stored => ?_
      have := (knows a signs k key stored).2
      rw [none] at this
      cases this

theorem Inv.act (inv : s.Inv) (mem : c ∈ s.calls) {action : Action} (step : s.act c c.phase action = some s') : s'.Inv := by
  have knows := inv.knows c mem
  unfold State.Knows at knows
  cases phase : c.phase with
  | tested =>
    rw [phase] at step
    cases action with
    | look id ok => exact inv.look mem phase step
    | _ => cases step
  | signing =>
    rw [phase] at step knows
    have sent := inv.sent knows
    cases action with
    | signUp id answer =>
      cases answer with
      | unsent => cases step; exact inv.drop mem inv.stay
      | lost   => cases step; exact inv.drop mem sent
      | signedUp answer =>
        simp only [State.act, Option.some.injEq] at step
        rw [← step]
        refine inv.put mem sent ?_
        split <;> exact ⟨knows, rfl⟩
    | _ => cases step
  | signedUp pending key =>
    rw [phase] at step knows
    cases action with
    | writePending id ok =>
      simp only [State.act] at step
      split at step <;> cases step
      · exact inv.put mem inv.pending knows
      · exact inv.drop mem inv.stay
    | _ => cases step
  | pendingWritten pending key =>
    rw [phase] at step knows
    cases action with
    | setKey id ok =>
      simp only [State.act] at step
      split at step <;> cases step
      · rw [knows.2]
        exact inv.put mem inv.key trivial
      · exact inv.drop mem inv.stay
    | _ => cases step
  | keyed pending =>
    rw [phase] at step
    cases action with
    | writeService id ok =>
      simp only [State.act] at step
      split at step <;> cases step
      · exact inv.put mem inv.files trivial
      · exact inv.drop mem inv.stay
    | _ => cases step
  | recorded pending =>
    rw [phase] at step
    cases action with
    | writeMeta id ok =>
      simp only [State.act] at step
      split at step <;> cases step
      · exact inv.put mem inv.files trivial
      · exact inv.drop mem inv.stay
    | _ => cases step
  | stored agent =>
    rw [phase] at step
    cases action with
    | finish id wrote ok =>
      simp only [State.act] at step
      split at step <;> split at step <;> cases step
      · exact inv.put mem inv.files trivial
      · exact inv.drop mem inv.files
      · exact inv.put mem inv.stay trivial
      · exact inv.drop mem inv.stay
    | _ => cases step
  | finished =>
    rw [phase] at step
    cases action with
    | forget id ok =>
      cases step
      cases ok
      · exact inv.drop mem inv.stay
      · exact inv.drop mem inv.pending
    | _ => cases step

-- A call begins alone for its request and its address.
theorem Inv.begin_ (inv : s.Inv) (id : c.id = s.next)
    (alone : ∀ d ∈ s.calls, d.requestId ≠ c.requestId ∧ ∀ a, c.signs = some a → d.signs ≠ some a) (knows : s.Knows c) :
    ({ s with calls := s.calls.replace c, next := s.next + 1 } : State).Inv := by
  have cases_ {d : Call} (mem : d ∈ s.calls.replace c) : d ∈ s.calls ∨ d = c :=
    (Table.mem_replace.mp mem).imp_left And.left
  refine ⟨fun d hd d' hd' ne => ?_, fun d hd => ?_, inv.works, inv.once, fun d hd => ?_⟩
  · rcases cases_ hd with mem | rfl <;> rcases cases_ hd' with mem' | rfl
    · exact inv.apart d mem d' mem' ne
    · exact ⟨(alone d mem).1, fun a signs own => (alone d mem).2 a own signs⟩
    · exact ⟨(alone d' mem').1.symm, (alone d' mem').2⟩
    · exact absurd rfl ne
  · rcases cases_ hd with hd | rfl
    · exact inv.knows d hd
    · exact knows
  · rcases cases_ hd with hd | rfl
    · exact Nat.lt_succ_of_lt (inv.old d hd)
    · exact id ▸ Nat.lt_succ_self _

-- What a call knows that was not refused.
theorem not_refused {email requestId : String} (accepted : s.refuses email requestId = false)
    (finished : ∀ k ∈ s.keys.rows, k.2.signs = some (toLowercase email) → k.1 ≠ requestId →
      s.Finished k ∧ k.2.Spelled email)
    {k : String × Key} (mem : k ∈ s.keys) (stored : k.2.signs = some (toLowercase email)) :
    k.1 = requestId ∧ (s.pending requestId).isSome = true := by
  have accepted' : ¬((s.agentsOnDisk.any fun a => (s.readService a.2.serviceAccount).any (·.names email)) = true ∨
      (s.keys.find? requestId).isSome = true ∧ (s.pending requestId).isNone = true) := of_decide_eq_false accepted
  rw [not_or] at accepted'
  obtain ⟨unseen, resumable⟩ := accepted'
  have same : k.1 = requestId := by
    by_contra other
    obtain ⟨done, spelled⟩ := finished k mem stored other
    obtain ⟨id, key⟩ := k
    cases key with
    | primitive => cases stored
    | agentMail email' n =>
      obtain ⟨agent, disk, account, r, read, service, human⟩ := done
      refine unseen (List.any_eq_true.mpr ⟨agent, disk, ?_⟩)
      rw [account, Option.any_eq_true]
      refine ⟨r, read, ?_⟩
      simp only [ServiceMeta.names, service, human, true_and, Option.any_some, decide_eq_true_eq]
      exact spelled
  refine ⟨same, ?_⟩
  have has : (s.keys.find? requestId).isSome = true := by
    rw [← same, Table.find?_key mem]
    rfl
  cases found : s.pending requestId with
  | some _ => rfl
  | none   => exact absurd ⟨has, by rw [found]; rfl⟩ resumable

theorem Inv.call (inv : s.Inv) {service : AgentService} {name requestId : String} {humanEmail : Option String}
    (cond : s.Cond (.call service name humanEmail requestId)) : (s.call service name humanEmail requestId).Inv := by
  obtain ⟨alone, finished⟩ := cond
  unfold State.call
  dsimp only
  generalize (humanEmail.map trim).filter (· ≠ "") = email at *
  split
  case isTrue => exact inv
  case isFalse =>
    cases service with
    | primitive =>
      refine inv.begin_ rfl (fun d mem => ⟨(alone d mem).1, fun a signs => ?_⟩) fun a signs => ?_
      all_goals cases email <;> cases signs
    | agentMail =>
      dsimp only
      split
      case isTrue => exact inv
      case isFalse given =>
        obtain ⟨e, rfl⟩ : ∃ e, email = some e := by
          cases email with
          | none   => exact absurd (by simp) given
          | some e => exact ⟨e, rfl⟩
        have alone' (phase : Phase) : ∀ d ∈ s.calls, d.requestId ≠ requestId ∧ ∀ a,
            (⟨s.next, .agentMail, cleanText name, some e, requestId, phase⟩ : Call).signs = some a → d.signs ≠ some a := by
          intro d mem
          refine ⟨(alone d mem).1, fun a signs => ?_⟩
          cases signs
          exact (alone d mem).2 rfl
        split
        case h_1 => exact inv.begin_ rfl (alone' _) trivial
        case h_2 fresh =>
          split
          case isTrue => exact inv
          case isFalse accepted =>
            refine inv.begin_ rfl (alone' _) fun a signs k mem stored => ?_
            cases signs
            exact not_refused (Bool.not_eq_true _ ▸ accepted) (finished rfl fresh) mem stored

theorem inv_step (inv : s.Inv) {action : Action} (cond : s.Cond action) (step : s.step action = some s') : s'.Inv := by
  have act (h : (action.id?.bind s.calls.find? >>= fun c => s.act c c.phase action) = some s') : s'.Inv := by
    obtain ⟨c, found, h⟩ := Option.bind_eq_some_iff.mp h
    obtain ⟨_, -, found⟩ := Option.bind_eq_some_iff.mp found
    exact inv.act (Table.find?_mem found) h
  cases action with
  | call _ _ _ _ => cases step; exact inv.call cond
  | crash =>
    cases step
    exact ⟨fun _ h => absurd h Table.not_mem_empty, fun _ h => absurd h Table.not_mem_empty, inv.works, inv.once,
      fun _ h => absurd h Table.not_mem_empty⟩
  | _ => exact act step

theorem inv_start : ({} : State).Inv :=
  ⟨fun _ h => absurd h Table.not_mem_empty, fun _ h => absurd h Table.not_mem_empty,
    fun _ h => absurd h Table.not_mem_empty, rfl, fun _ h => absurd h Table.not_mem_empty⟩

-- The app never signs up an address that a working key is stored for: no key that it stores is made invalid by it.
theorem reachable_keys_work (h : creations.Reachable Cond s) :
    s.repeated = false ∧ ∀ k ∈ s.keys, s.works k.2 = true := by
  have inv : s.Inv :=
    h.invariant (fun s (start : s = {}) => start ▸ inv_start) fun _ _ _ inv cond step => inv_step inv cond step
  exact ⟨inv.once, inv.works⟩

end State

section Decided

instance (s : State) (k : String × Key) : Decidable (s.Finished k) :=
  match k with
  | (id, .agentMail email _) => inferInstanceAs (Decidable (∃ agent ∈ s.agentsOnDisk, agent.2.serviceAccount = id ∧
      ∃ r ∈ s.readService id, r.service = .agentMail ∧ r.humanEmail = some email))
  | (_, .primitive)          => isTrue trivial

instance (email : String) (key : Key) : Decidable (key.Spelled email) :=
  match key with
  | .agentMail email' _ => inferInstanceAs (Decidable (eqIgnoreAsciiCase (trim email') (trim email) = true))
  | .primitive          => isTrue trivial

instance (s : State) (action : Action) : Decidable (s.Cond action) :=
  match action with
  | .call service _ humanEmail requestId =>
    inferInstanceAs (Decidable ((∀ c ∈ s.calls.rows, c.requestId ≠ requestId ∧ (service = .agentMail →
        c.signs ≠ some (toLowercase (((humanEmail.map trim).filter (· ≠ "")).getD "")))) ∧
      (service = .agentMail → s.readMeta requestId = none → ∀ k ∈ s.keys.rows,
        k.2.signs = some (toLowercase (((humanEmail.map trim).filter (· ≠ "")).getD "")) → k.1 ≠ requestId →
        s.Finished k ∧ k.2.Spelled (((humanEmail.map trim).filter (· ≠ "")).getD ""))))
  | .look .. | .signUp .. | .writePending .. | .setKey .. | .writeService .. | .writeMeta .. | .finish .. | .forget .. |
    .crash => isTrue trivial

end Decided

end Kept

section Runs

def signedUp : Answer :=
  .signedUp { address := "scout@agentmail.to" }

-- What is left of a creation whose key is in the Keychain.
def fromKey (id : Nat) : List Action :=
  [.writeService id true, .writeMeta id true, .finish id true true, .forget id true]

def toKey (id : Nat) (email requestId : String) : List Action :=
  [.call .agentMail "Scout" (some email) requestId, .look id true, .signUp id signedUp, .writePending id true,
    .setKey id true]

-- A creation is cut off once its key is stored, and finished by asking again. The next call, for the address in other
-- letters, is refused, and one for another address makes a second mailbox.
def mailboxes : List Action :=
  toKey 0 "me@a.io" "r1" ++ [.crash, .call .agentMail "Scout" (some "me@a.io") "r1", .look 1 true] ++ fromKey 1 ++
    [.call .agentMail "Scout" (some "Me@a.io") "r2"] ++ toKey 2 "you@a.io" "r3" ++ fromKey 2

theorem reachable_keys_work_mailboxes : ∃ s, (@creations ascii).Reachable (@State.Cond ascii) s ∧
    (s.keys.rows.length = 2 ∧ s.metas.rows.length = 2 ∧ s.signUps "me@a.io" = 1 ∧ s.signUps "you@a.io" = 1) ∧
    s.repeated = false ∧ ∀ k ∈ s.keys, @State.works ascii s k.2 = true := by
  have run : ((@creations ascii).run (@State.Cond ascii) {} mailboxes).any (fun s => s.keys.rows.length = 2 ∧
      s.metas.rows.length = 2 ∧ s.signUps "me@a.io" = 1 ∧ s.signUps "you@a.io" = 1) = true := by
    decide +kernel
  obtain ⟨s, hs, made⟩ := (Option.any_eq_true _ _).mp run
  have made_ : (@creations ascii).Reachable (@State.Cond ascii) s := .run (.start rfl) hs
  exact ⟨s, made_, of_decide_eq_true made, @State.reachable_keys_work ascii _ made_⟩

-- The app quits after a key is stored and before its mailbox is on disk; the user then asks again, in another sheet.
theorem signed_up_twice : ¬∀ s, (@creations ascii).Reachable (fun _ _ => True) s →
    s.repeated = false ∧ ∀ k ∈ s.keys, @State.works ascii s k.2 = true := by
  intro claim
  have run : ((@creations ascii).run (fun _ _ => True) {} [.call .agentMail "Scout" (some "me@a.io") "r1", .look 0 true,
      .signUp 0 signedUp, .writePending 0 true, .setKey 0 true, .crash,
      .call .agentMail "Scout" (some "Me@a.io") "r2", .look 1 true, .signUp 1 signedUp]).any (·.repeated) := by
    decide +kernel
  obtain ⟨s, hs, again⟩ := (Option.any_eq_true _ _).mp run
  exact Bool.false_ne_true ((claim s (.run (.start rfl) hs)).1.symm.trans again)

end Runs

end Kaluta.Agents.Creation
