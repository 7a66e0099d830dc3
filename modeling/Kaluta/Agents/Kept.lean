import Kaluta.Agents.Meta
import Mathlib.Data.List.Induction

-- When no update of a mailbox's settings is lost.
namespace Kaluta.Agents

open Guide (Unicode ascii)

namespace Request

def mode? : Request → Option AgentSendMode
  | setAgentSendMode mode => some mode
  | _                     => none

def name? : Request → Option String
  | renameMeta name => some name
  | _               => none

def address? : Request → Option String
  | setAgentAddress address => some address
  | _                       => none

end Request

variable {kept : List (Nat × Request)} {first : AgentMeta}

-- The value of the last call that set something.
def last (f : Request → Option α) (kept : List (Nat × Request)) (first : α) : α :=
  ((kept.filterMap (f ·.2)).getLast?).getD first

-- A record with the settings that calls wrote, one after another.
def replay (first : AgentMeta) (kept : List (Nat × Request)) : AgentMeta :=
  kept.foldl (fun m e => e.2.apply m) first

theorem replay_append (first : AgentMeta) (kept : List (Nat × Request)) (e : Nat × Request) :
    replay first (kept ++ [e]) = e.2.apply (replay first kept) :=
  List.foldl_append ..

theorem last_append {f : Request → Option α} {init : α} {e : Nat × Request} :
    last f (kept ++ [e]) init = (f e.2).getD (last f kept init) := by
  unfold last
  rw [List.filterMap_append, List.getLast?_append, Option.getD_or]
  cases h : f e.2 with
  | none   => simp [h]
  | some _ => simp [h]

theorem replay_settings (first : AgentMeta) (kept : List (Nat × Request)) :
    (replay first kept).sendMode = last Request.mode? kept first.sendMode ∧
    (replay first kept).name = last Request.name? kept first.name ∧
    (replay first kept).address = last Request.address? kept first.address := by
  induction kept using List.reverseRecOn with
  | nil => exact ⟨rfl, rfl, rfl⟩
  | append_singleton init e ih =>
    obtain ⟨mode, name, address⟩ := ih
    simp only [replay_append, last_append]
    obtain ⟨_, request⟩ := e
    cases request with
    | setAgentSendMode _   => exact ⟨rfl, name, address⟩
    | renameMeta _         => exact ⟨mode, rfl, address⟩
    | setAgentAddress _    => exact ⟨mode, name, rfl⟩
    | repairAgentAddress _ => exact ⟨mode, name, address⟩

namespace State

variable [Unicode] {s s' : State} {id : Nat} {c : Call}

-- Whether the record is as the call read it, or as it wrote it.
def unchanged (s : State) (id : Nat) : Bool :=
  match (s.calls id).map Call.phase with
  | some (.read _ seen)    => seen = s.writes
  | some (.written _ seen) => seen = s.writes
  | _                      => true

def repairs (s : State) (id : Nat) : Bool :=
  match (s.calls id).map Call.request with
  | some (.repairAgentAddress _) => true
  | _                            => false

-- No other call writes the record between a call's read and its last write,
-- and a new address that is written does not fail to be stored.
def Undisturbed (s : State) : Action → Prop
  | .call _ _            => True
  | .write id _ ok       => ok = true → s.unchanged id = true
  | .provide id ok back  => ok = true ∨ (back = true ∧ s.unchanged id = true)
  | .finish id ok        => ok = true ∨ s.repairs id = true

-- What a call knows of the record as long as no other writes it.
def Knows (s : State) (id : Nat) (c : Call) : Prop :=
  match c.phase with
  | .read copy seen    => seen ≤ s.writes ∧ Current s.dir (c.request.apply copy) ∧ (∀ e ∈ s.kept, e.1 ≠ id) ∧
      (seen = s.writes → readMeta s.dir s.disk = copy)
  | .written prev seen => seen ≤ s.writes ∧ c.request.sets = true ∧ Current s.dir prev ∧
      (seen = s.writes → ∃ init, s.kept = init ++ [(id, c.request)] ∧ (∀ e ∈ init, e.1 ≠ id) ∧ replay s.first init = prev)
  | .storing           => c.request.sets = false → ∀ e ∈ s.kept, e.1 ≠ id

-- After another write, a call knows nothing of the record, but still what it set itself.
theorem Knows.overtaken (knows : s.Knows id c) (dir : s'.dir = s.dir) (writes : s'.writes = s.writes + 1)
    (kept : ∀ e ∈ s'.kept, e.1 = id → e ∈ s.kept) : s'.Knows id c := by
  obtain ⟨request, phase⟩ := c
  have others (h : ∀ e ∈ s.kept, e.1 ≠ id) : ∀ e ∈ s'.kept, e.1 ≠ id := fun e mem eq => h e (kept e mem eq) eq
  cases phase with
  | read copy seen =>
    obtain ⟨le, current, none, -⟩ := knows
    exact ⟨by omega, dir ▸ current, others none, fun eq => by omega⟩
  | written prev seen =>
    obtain ⟨le, sets, current, -⟩ := knows
    exact ⟨by omega, sets, dir ▸ current, fun eq => by omega⟩
  | storing => exact fun sets => others (knows sets)

structure Inv (s : State) : Prop where
  stored : readMeta s.dir s.disk = replay s.first s.kept
  knows  : ∀ {id c}, s.calls id = some c → s.Knows id c
  called : ∀ {id c}, s.calls id = some c → id < s.next
  old    : ∀ e ∈ s.kept, e.1 < s.next

omit [Unicode] in
theorem drop_calls {id' : Nat} (h : (s.drop id).calls id' = some c) : id' ≠ id ∧ s.calls id' = some c := by
  by_cases eq : id' = id
  · simp [State.drop, eq] at h
  · exact ⟨eq, by simpa [State.drop, eq] using h⟩

theorem Inv.drop (inv : s.Inv) (id : Nat) : (s.drop id).Inv where
  stored := inv.stored
  knows h  := inv.knows (drop_calls h).2
  called h := inv.called (drop_calls h).2
  old      := inv.old

theorem Inv.put (inv : s.Inv) (knows : s.Knows id c) (called : id < s.next) : (s.put id c).Inv where
  stored := inv.stored
  knows {id' c'} h := by
    by_cases eq : id' = id
    · subst eq
      have eq' : c = c' := by simpa [State.put] using h
      exact eq' ▸ knows
    · exact inv.knows (by simpa [State.put, eq] using h)
  called {id' c'} h := by
    by_cases eq : id' = id
    · exact eq ▸ called
    · exact inv.called (by simpa [State.put, eq] using h)
  old := inv.old

-- A call that has set nothing fails.
theorem Inv.fail (inv : s.Inv) (none : ∀ e ∈ s.kept, e.1 ≠ id) : (s.fail id).Inv := by
  have same : s.kept.filter (·.1 ≠ id) = s.kept :=
    List.filter_eq_self.mpr fun e mem => decide_eq_true (none e mem)
  rw [State.fail, same]
  exact inv.drop id

-- A call writes the record, and goes on or returns.
theorem Inv.settle (inv : s.Inv) {phase : Option Phase}
    (knows : ∀ p, phase = some p → s.Knows id ⟨c.request, p⟩) (called : id < s.next) :
    (s.settle id c.request phase).Inv := by
  cases phase with
  | none   => exact inv.drop id
  | some p => exact inv.put (knows p rfl) called

omit [Unicode] in
theorem isAddress_at {address : String} (h : isAddress address = true) : '@' ∈ address.toList := by
  unfold isAddress rsplitOnce at h
  dsimp only at h
  cases eq : address.toList.reverse.dropWhile (· ≠ '@') with
  | nil =>
    rw [eq] at h
    cases h
  | cons c before =>
    have mem : c ∈ address.toList.reverse := (List.dropWhile_sublist _).subset (eq ▸ List.mem_cons_self)
    have at_ := List.head?_dropWhile_not (· ≠ '@') address.toList.reverse
    rw [eq] at at_
    simp at at_
    exact at_ ▸ List.mem_reverse.mp mem

omit [Unicode] in
theorem keep_next {request : Request} : (s.keep id request).next = s.next := by
  unfold State.keep
  split <;> rfl

omit [Unicode] in
theorem settle_keep {request : Request} {phase : Option Phase} :
    (s.settle id request phase).keep id request = (s.keep id request).settle id request phase := by
  unfold State.keep
  split <;> cases phase <;> rfl

omit [Unicode] in
theorem settle_drop {request : Request} {phase : Option Phase} {m : AgentMeta} :
    ((((s.drop id).store m).keep id request).settle id request phase) =
      ((s.store m).keep id request).settle id request phase := by
  unfold State.keep
  split <;> cases phase <;> simp [State.settle, State.put, State.drop, State.store]

-- The record after a call wrote it from a copy that no other call has overtaken.
theorem Inv.wrote (inv : s.Inv) {request : Request} {copy : AgentMeta} (called : id < s.next)
    (current : Current s.dir (request.apply copy)) (copied : copy = replay s.first s.kept) :
    (((s.drop id).store (request.apply copy)).keep id request).Inv := by
  have later {kept : List (Nat × Request)} (h : ∀ e ∈ kept, e.1 ≠ id → e ∈ s.kept)
      (stored : request.apply copy = replay s.first kept) (old : ∀ e ∈ kept, e.1 < s.next) :
      ({ (s.drop id).store (request.apply copy) with kept } : State).Inv := by
    refine ⟨current.readMeta_eq.trans stored, fun {id' c} mem => ?_, fun {id' c} mem => ?_, old⟩
    · obtain ⟨ne, mem⟩ := drop_calls mem
      exact (inv.knows mem).overtaken rfl rfl fun e mem eq => h e mem (eq ▸ ne)
    · exact inv.called (drop_calls mem).2
  unfold State.keep
  split
  case isTrue sets =>
    refine later (fun e mem ne => ?_) (by rw [copied]; exact (replay_append s.first s.kept (id, request)).symm)
      (fun e mem => ?_)
    · rcases List.mem_append.mp mem with mem | mem
      · exact mem
      · exact absurd (congrArg Prod.fst (List.mem_singleton.mp mem)) ne
    · rcases List.mem_append.mp mem with mem | mem
      · exact inv.old e mem
      · exact List.mem_singleton.mp mem ▸ called
  case isFalse repairs =>
    refine later (fun e mem _ => mem) ?_ inv.old
    cases request with
    | repairAgentAddress _ => exact copied
    | _                    => exact absurd rfl repairs

theorem inv_call (inv : s.Inv) {request : Request} {others : List AgentMeta}
    (step : s.step (.call request others) = some s') : s'.Inv := by
  simp only [State.step] at step
  split at step
  case isFalse => cases step; exact inv
  case isTrue begins =>
    cases step
    have current : Current s.dir (request.apply (readMeta s.dir s.disk)) := by
      have read := readMeta_current s.dir s.disk
      cases request with
      | setAgentSendMode _      => exact ⟨read.address, read.managedAddress, read.serviceAccount⟩
      | renameMeta _            => exact ⟨read.address, read.managedAddress, read.serviceAccount⟩
      | repairAgentAddress _    => exact read
      | setAgentAddress address =>
        have valid : isAddress address = true := (of_decide_eq_true begins).1
        exact ⟨isAddress_at valid, read.managedAddress, read.serviceAccount⟩
    have none : ∀ e ∈ s.kept, e.1 ≠ s.next := fun e mem => Nat.ne_of_lt (inv.old e mem)
    have next : ({ s with next := s.next + 1 } : State).Inv :=
      ⟨inv.stored, inv.knows, fun h => Nat.lt_succ_of_lt (inv.called h), fun e mem => Nat.lt_succ_of_lt (inv.old e mem)⟩
    exact next.put (c := ⟨request, .read (readMeta s.dir s.disk) s.writes⟩) ⟨Nat.le_refl _, current, none, fun _ => rfl⟩
      (Nat.lt_succ_self _)

theorem inv_write (inv : s.Inv) {domains : Option (List AgentDomain)} {ok : Bool}
    (cond : ok = true → s.unchanged id = true) (step : s.step (.write id domains ok) = some s') : s'.Inv := by
  simp only [State.step] at step
  cases call : s.calls id with
  | none => simp [call] at step
  | some c =>
    obtain ⟨request, phase⟩ := c
    rw [call] at step
    cases phase with
    | written _ _ => cases step
    | storing     => cases step
    | read copy seen =>
      obtain ⟨-, current, none, copied⟩ := inv.knows call
      simp only [Option.bind_eq_bind, Option.bind_some] at step
      split at step
      case isFalse => cases step; exact inv.fail none
      case isTrue h =>
        cases step
        have same : seen = s.writes := by simpa [unchanged, call] using cond h.2
        have read := copied same
        -- The call is taken out, and put back with what it knows after its write.
        have wrote := inv.wrote (inv.called call) current (read.symm.trans inv.stored)
        rw [settle_keep, ← settle_drop]
        refine wrote.settle (c := ⟨request, .read copy seen⟩) (fun p next => ?_) (by rw [keep_next]; exact inv.called call)
        cases request with
        | setAgentSendMode _   => cases next
        | renameMeta _         => cases next
        | repairAgentAddress _ => cases next; exact fun _ => none
        | setAgentAddress _    =>
          cases next
          have stored := read.symm.trans inv.stored
          exact ⟨Nat.le_refl _, rfl, read ▸ readMeta_current s.dir s.disk, fun _ => ⟨s.kept, rfl, none, stored.symm⟩⟩

theorem inv_provide (inv : s.Inv) {ok back : Bool}
    (cond : ok = true ∨ (back = true ∧ s.unchanged id = true)) (step : s.step (.provide id ok back) = some s') : s'.Inv := by
  simp only [State.step] at step
  cases call : s.calls id with
  | none => simp [call] at step
  | some c =>
    obtain ⟨request, phase⟩ := c
    rw [call] at step
    cases phase with
    | read _ _ => cases step
    | storing  => cases step
    | written prev seen =>
      obtain ⟨-, sets, current, wrote⟩ := inv.knows call
      simp only [Option.bind_eq_bind, Option.bind_some] at step
      split at step
      case isTrue =>
        cases step
        exact inv.put (c := ⟨request, .storing⟩) (fun h => absurd (sets.symm.trans h) (by decide)) (inv.called call)
      case isFalse failed =>
        obtain ⟨rfl, same⟩ := cond.resolve_left failed
        cases step
        have same' : seen = s.writes := by simpa [unchanged, call] using same
        obtain ⟨init, kept, none, replayed⟩ := wrote same'
        have back : s.kept.filter (·.1 ≠ id) = init := by
          rw [kept, List.filter_append, List.filter_eq_self.mpr fun e mem => decide_eq_true (none e mem)]
          simp
        refine ⟨?_, fun {id' c} mem => ?_, fun {id' c} mem => ?_, fun e mem => ?_⟩
        · exact current.readMeta_eq.trans (replayed.symm.trans (congrArg (replay s.first) back.symm))
        · obtain ⟨-, mem⟩ := drop_calls (s := s.store prev) mem
          exact (inv.knows mem).overtaken rfl rfl fun e mem _ => (List.mem_filter.mp mem).1
        · exact inv.called (drop_calls (s := s.store prev) mem).2
        · exact inv.old e (List.mem_filter.mp mem).1

theorem inv_finish (inv : s.Inv) {ok : Bool} (cond : ok = true ∨ s.repairs id = true)
    (step : s.step (.finish id ok) = some s') : s'.Inv := by
  simp only [State.step] at step
  cases call : s.calls id with
  | none => simp [call] at step
  | some c =>
    obtain ⟨request, phase⟩ := c
    rw [call] at step
    cases phase with
    | read _ _    => cases step
    | written _ _ => cases step
    | storing =>
      simp only [Option.bind_eq_bind, Option.bind_some] at step
      split at step
      case isTrue => cases step; exact inv.drop id
      case isFalse failed =>
        cases step
        have repairs := cond.resolve_left failed
        refine inv.fail (inv.knows call ?_)
        cases request <;> simp_all [State.repairs, Request.sets]

theorem inv_step (inv : s.Inv) {a : Action} (ok : s.Undisturbed a) (step : s.step a = some s') : s'.Inv := by
  cases a with
  | call _ _      => exact inv_call inv step
  | write _ _ _   => exact inv_write inv ok step
  | provide _ _ _ => exact inv_provide inv ok step
  | finish _ _    => exact inv_finish inv ok step

theorem inv_start (h : settings.Start s) : s.Inv := by
  obtain ⟨-, -, calls, kept, first⟩ := h
  refine ⟨?_, fun mem => ?_, fun mem => ?_, fun e mem => ?_⟩
  · rw [kept, first]; rfl
  · rw [calls] at mem; cases mem
  · rw [calls] at mem; cases mem
  · rw [kept] at mem; cases mem

-- No update of the settings is lost: the mailbox sends as the last call that set it says, and once all calls have
-- returned the name and the address are the last ones set.
def NothingLost (s : State) : Prop :=
  (readMeta s.dir s.disk).sendMode = last Request.mode? s.kept s.first.sendMode ∧
    ((∀ id, s.calls id = none) →
      (readMeta s.dir s.disk).name = last Request.name? s.kept s.first.name ∧
      (readMeta s.dir s.disk).address = last Request.address? s.kept s.first.address)

instance : ∀ a, Decidable (s.Undisturbed a)
  | .call _ _      => inferInstanceAs (Decidable True)
  | .write _ _ _   => inferInstanceAs (Decidable (_ → _))
  | .provide _ _ _ => inferInstanceAs (Decidable (_ ∨ _))
  | .finish _ _    => inferInstanceAs (Decidable (_ ∨ _))

theorem reachable_settings_kept (h : settings.Reachable Undisturbed s) : s.NothingLost := by
  have inv : s.Inv := h.invariant (fun _ => inv_start) fun _ _ _ inv ok step => inv_step inv ok step
  obtain ⟨mode, name, address⟩ := replay_settings s.first s.kept
  rw [NothingLost, inv.stored]
  exact ⟨mode, fun _ => ⟨name, address⟩⟩

end State

section Overlap

-- A mailbox that sends freely, at its service's address.
def scout : State where
  dir   := "scout"
  disk  := { address := "scout@a.io", name := "Scout", managedAddress := some "scout@a.io", serviceAccount := "a" }
  first := { address := "scout@a.io", name := "Scout", managedAddress := some "scout@a.io", serviceAccount := "a" }

theorem scout_start : (@settings ascii).Start scout :=
  ⟨rfl, rfl, rfl, rfl, by decide⟩

-- One call after another.
theorem reachable_settings_kept_scout : ∃ s, (@settings ascii).Reachable State.Undisturbed s ∧
    s.kept.length = 2 ∧ @State.NothingLost ascii s := by
  have run : ((@settings ascii).run State.Undisturbed scout [.call (.setAgentSendMode .ask) [], .write 0 none true,
      .call (.setAgentAddress "scout@a.io") [], .write 1 none true, .provide 1 true true, .finish 1 true]).any
        (·.kept.length = 2) := by decide +kernel
  obtain ⟨s, hs, two⟩ := (Option.any_eq_true _ _).mp run
  have reached := System.Reachable.run (.start scout_start) hs
  exact ⟨s, reached, of_decide_eq_true two, @State.reachable_settings_kept ascii s reached⟩

-- The user has agents ask while the service is asked about an own domain's address, which then brings the old record
-- back.
theorem ask_lost : ¬∀ s, (@settings ascii).Reachable (fun _ _ => True) s → @State.NothingLost ascii s := by
  intro claim
  have run : ((@settings ascii).run (fun _ _ => True) scout [.call (.setAgentAddress "scout@b.io") [],
      .call (.setAgentSendMode .ask) [], .write 1 none true, .write 0 (some [⟨"b.io", true⟩]) true,
      .provide 0 true true, .finish 0 true]).any fun s => (@readMeta ascii s.dir s.disk).sendMode ≠
        last Request.mode? s.kept s.first.sendMode := by decide +kernel
  obtain ⟨s, hs, lost⟩ := (Option.any_eq_true _ _).mp run
  exact of_decide_eq_true lost (claim s (.run (.start scout_start) hs)).1

end Overlap

end Kaluta.Agents
