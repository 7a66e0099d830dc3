import Kaluta.Agents.Release

-- When a service account's key stays as long as an agent uses it, and goes with the last.
namespace Kaluta.Agents.Release

variable {s s' : State} {c c' : Call} {phase : Phase}

-- Every agent on disk whose removal did not succeed, and is not going on, has its service account's record and key;
-- and with no call going on, every key has an agent.
def State.KeysKept (s : State) : Prop :=
  (∀ m ∈ s.disk, m.1 ∉ s.gone → (∀ c ∈ s.calls, c.removes = true → c.account ≠ m.1) →
    s.keys m.2 = true ∧ s.readable m.2 = true) ∧
  (s.calls.rows = [] → ∀ service, s.keys service = true → ∃ m ∈ s.disk, m.2 = service)

def State.alone (s : State) (service : String) : Bool :=
  s.calls.rows.all fun c => ¬c.removes ∨ c.service ≠ service

-- A removal begins while no other of its service account is going on; one of an orphan releases the service account;
-- after the key is deleted the directory goes, and the app does not quit before; and an agent is added under a name
-- that is not being removed and was not.
def State.Cond (s : State) : Action → Prop
  | .remove account       => s.alone (s.serviceOf account) = true
  | .removeOrphan account => s.alone (s.serviceOf account) = true
  | .release id ok _      => ok = true ∨ (s.calls.find? id).any (·.orphan) = false
  | .clear id ok          => ok = true ∨ (s.calls.find? id).any (·.phase = .released true) = false
  | .crash                => s.calls.rows.all (·.phase ≠ .released true) = true
  | .write id _ _         => ∀ c ∈ s.calls.rows, c.id = id → c.account ∉ s.removed ∧ c.account ∉ s.gone ∧
      (∀ c' ∈ s.calls.rows, c'.removes = true → c'.account ≠ c.account) ∧
      ∀ m ∈ s.disk.rows, m.1 = c.account → m.2 = c.service
  | _                     => True

structure State.Inv (s : State) : Prop where
  safe   : ∀ m ∈ s.disk, m.1 ∉ s.gone → (s.keys m.2 = true ∧ s.readable m.2 = true) ∨
    ∃ c ∈ s.calls, c.account = m.1 ∧ c.service = m.2 ∧ c.phase = .released true
  used   : ∀ service, s.keys service = true → ∃ m ∈ s.disk, m.2 = service
  kept   : ∀ c ∈ s.calls, c.phase = .released false →
    (s.keys c.service = true → ∃ m ∈ s.disk, m.2 = c.service ∧ m.1 ≠ c.account) ∧
    ∀ m ∈ s.disk, m.2 = c.service → m.1 ≠ c.account → m.1 ∉ s.gone → s.records c.service = true
  freed  : ∀ c ∈ s.calls, c.phase = .released true → s.keys c.service = false
  own    : ∀ c ∈ s.calls, c.removes = true → ∀ m ∈ s.disk, m.1 = c.account → m.2 = c.service
  apart  : ∀ c ∈ s.calls, ∀ c' ∈ s.calls, c.removes = true → c'.removes = true → c.service = c'.service → c = c'
  marked : ∀ a ∈ s.removed, a ∈ s.gone ∨ ∃ c ∈ s.calls, c.removes = true ∧ c.orphan = false ∧ c.account = a
  locked : ∀ c ∈ s.calls, c.phase = .locked → s.keys c.service = true ∧ s.adding = some c.id
  old    : ∀ c ∈ s.calls, c.id < s.next

namespace State

theorem mem_put (mem : c ∈ s.calls) : c' ∈ s.calls.replace { c with phase } ↔
    (c' ∈ s.calls ∧ c' ≠ c) ∨ c' = { c with phase } := by
  rw [Table.mem_replace]
  refine or_congr_left (and_congr_right fun mem' => not_congr ⟨fun eq => Table.eq_of_key_eq mem' mem eq, congrArg Call.id⟩)

theorem mem_drop (mem : c ∈ s.calls) : c' ∈ s.calls.delete (·.id = c.id) ↔ c' ∈ s.calls ∧ c' ≠ c := by
  rw [Table.mem_delete, decide_eq_false_iff_not]
  exact and_congr_right fun mem' => not_congr ⟨fun eq => Table.eq_of_key_eq mem' mem eq, congrArg Call.id⟩

theorem readable_iff {service : String} : s.readable service = true ↔
    s.records service = true ∨ (service, service) ∈ s.disk := by
  simp [State.readable, Table.mem_rows]

-- Whoever removes an account still does after a step of its own.
theorem still_removes {account : String} (removes : ({ c with phase } : Call).removes = true)
    (h : ∃ d ∈ s.calls, d.removes = true ∧ d.orphan = false ∧ d.account = account) :
    ∃ d, ((d ∈ s.calls ∧ d ≠ c) ∨ d = { c with phase }) ∧ d.removes = true ∧ d.orphan = false ∧ d.account = account := by
  obtain ⟨d, mem, removes', listed, rfl⟩ := h
  by_cases eq : d = c
  · exact ⟨_, .inr rfl, removes, eq ▸ listed, by rw [eq]⟩
  · exact ⟨d, .inl ⟨mem, eq⟩, removes', listed, rfl⟩

-- A removal that has not deleted the key goes on, or ends.
theorem Inv.advance (inv : s.Inv) (mem : c ∈ s.calls) (removes : c.removes = true) (deleted : c.phase ≠ .released true)
    (next : phase = .forgotten ∨ phase = .cleared) : (s.put c phase).Inv := by
  obtain ⟨safe, used, kept, freed, own, apart, marked, locked, old⟩ := inv
  simp only [readable_iff] at safe
  have removes' : ({ c with phase } : Call).removes = true := by rcases next with rfl | rfl <;> rfl
  have phases : phase ≠ .released true ∧ phase ≠ .released false ∧ phase ≠ .locked := by
    rcases next with rfl | rfl <;> decide
  constructor
  all_goals simp only [readable_iff, State.put, mem_put mem]
  · grind
  · exact used
  · grind
  · grind
  · grind
  · grind
  · exact fun a h => (marked a h).imp_right (still_removes removes')
  · grind
  · grind

theorem Inv.fail (inv : s.Inv) (mem : c ∈ s.calls) (removes : c.removes = true) (deleted : c.phase ≠ .released true) :
    (s.fail c).Inv := by
  obtain ⟨safe, used, kept, freed, own, apart, marked, locked, old⟩ := inv
  simp only [readable_iff] at safe
  constructor
  all_goals simp only [readable_iff, State.fail, State.drop, mem_drop mem]
  · grind
  · exact used
  · grind
  · grind
  · grind
  · grind
  · cases h : c.orphan <;> grind
  · grind
  · grind

theorem Inv.succeed (inv : s.Inv) (mem : c ∈ s.calls) (deleted : c.phase ≠ .released true) (index : List String) :
    ({ s.drop c with index, gone := c.account :: s.gone } : State).Inv := by
  obtain ⟨safe, used, kept, freed, own, apart, marked, locked, old⟩ := inv
  simp only [readable_iff] at safe
  constructor
  all_goals simp only [readable_iff, State.drop, mem_drop mem]
  · grind
  · exact used
  · grind
  · grind
  · grind
  · grind
  · grind
  · grind
  · grind

-- An addition ends.
theorem Inv.give_up (inv : s.Inv) (mem : c ∈ s.calls) (adds : c.removes = false) {index : List String} {adding : Option Nat}
    (lock : adding = s.adding ∨ (adding = none ∧ s.adding = some c.id)) :
    ({ s.drop c with index, adding } : State).Inv := by
  obtain ⟨safe, used, kept, freed, own, apart, marked, locked, old⟩ := inv
  simp only [readable_iff] at safe
  have deleted : c.phase ≠ .released true := fun h => by simp [Call.removes, h] at adds
  have ids := fun d (hd : d ∈ s.calls) => Table.eq_of_key_eq hd mem
  constructor
  all_goals simp only [readable_iff, State.drop, mem_drop mem]
  · grind
  · exact used
  · grind
  · grind
  · grind
  · grind
  · grind
  · grind
  · grind

theorem record_records {service service' : String} :
    (s.record service).records service' = true ↔ s.records service' = true ∨ service' = service := by
  by_cases eq : service' = service
  · simp [State.record, eq]
  · simp [State.record, eq]

theorem Inv.record (inv : s.Inv) {service : String} : (s.record service).Inv := by
  obtain ⟨safe, used, kept, freed, own, apart, marked, locked, old⟩ := inv
  simp only [readable_iff] at safe
  refine ⟨fun m mem there => ?_, used, fun c mem phase => ⟨(kept c mem phase).1, fun m disk eq ne there => ?_⟩, freed, own,
    apart, marked, locked, old⟩
  · rw [readable_iff, record_records]
    exact (safe m mem there).imp_left fun h => ⟨h.1, h.2.imp_left .inl⟩
  · exact record_records.mpr (.inl ((kept c mem phase).2 m disk eq ne there))

theorem others_iff {service leaving : String} : s.others service leaving = true ↔
    ∃ m ∈ s.disk, m.1 ≠ leaving ∧ m.1 ∉ s.removed ∧ m.2 = service := by
  simp [State.others, Table.mem_rows]

-- Others use the service account: its key stays, and its record.
theorem Inv.release_kept (inv : s.Inv) (mem : c ∈ s.calls) (phase : c.phase = .forgotten)
    (others : s.others c.service c.account = true)
    (recorded : s.records c.service = true ∨ s.readable c.service = false) : (s.put c (.released false)).Inv := by
  obtain ⟨b, disk, ne, -, service⟩ := others_iff.mp others
  obtain ⟨safe, used, kept, freed, own, apart, marked, locked, old⟩ := inv
  have removes : c.removes = true := by simp [Call.removes, phase]
  simp only [readable_iff] at safe
  rw [← Bool.not_eq_true, readable_iff] at recorded
  constructor
  all_goals simp only [readable_iff, State.put, mem_put mem]
  · grind
  · exact used
  · rintro d (⟨hd, -⟩ | rfl) released
    · exact kept d hd released
    · refine ⟨fun _ => ⟨b, disk, service, ne⟩, fun m hm eq _ there => ?_⟩
      rcases safe m hm there with ⟨-, readable⟩ | ⟨d, hd, account, service', deleted⟩
      · exact recorded.resolve_right (not_not_intro (eq ▸ readable))
      · have same := apart c mem d hd removes (by simp [Call.removes, deleted]) (by rw [service', eq])
        grind
  · grind
  · grind [Call.removes]
  · grind [Call.removes]
  · exact fun a h => (marked a h).imp_right (still_removes rfl)
  · grind
  · grind

-- No other uses it: its key goes.
theorem Inv.release_deleted (inv : s.Inv) (mem : c ∈ s.calls) (phase : c.phase = .forgotten) (free : s.adding = none)
    (others : ¬s.others c.service c.account = true) {cleared : Bool} :
    ({ s with
      keys    := Function.update s.keys c.service false
      records := Function.update s.records c.service (s.records c.service && !cleared) }.put c (.released true)).Inv := by
  rw [others_iff] at others
  obtain ⟨safe, used, kept, freed, own, apart, marked, locked, old⟩ := inv
  have removes : c.removes = true := by simp [Call.removes, phase]
  simp only [readable_iff] at safe
  -- Another agent of the service account would be in a removal of its own, and there is no other.
  have alone : ∀ m ∈ s.disk, m.2 = c.service → m.1 ≠ c.account → m.1 ∈ s.gone := by
    intro m hm service ne
    by_contra there
    have marked' : m.1 ∈ s.removed := by
      by_contra unmarked
      exact others ⟨m, hm, ne, unmarked, service⟩
    obtain ⟨d, hd, removes', -, account⟩ := (marked m.1 marked').resolve_left there
    have eq := apart c mem d hd removes removes' (by rw [← service, own d hd removes' m hm account.symm])
    exact ne (by rw [eq, account])
  have updated {service : String} (ne : service ≠ c.service) :
      Function.update s.keys c.service false service = s.keys service ∧
        Function.update s.records c.service (s.records c.service && !cleared) service = s.records service :=
    ⟨Function.update_of_ne ne _ _, Function.update_of_ne ne _ _⟩
  have unused : Function.update s.keys c.service false c.service = false := Function.update_self ..
  constructor
  all_goals simp only [readable_iff, State.put, mem_put mem]
  · intro m hm there
    by_cases eq : m.2 = c.service
    · have account : m.1 = c.account := by
        by_contra ne
        exact there (alone m hm eq ne)
      exact .inr ⟨_, .inr rfl, account.symm, eq.symm, rfl⟩
    · rw [(updated eq).1, (updated eq).2]
      rcases safe m hm there with safe | ⟨d, hd, account, service, deleted⟩
      · exact .inl safe
      · exact .inr ⟨d, .inl ⟨hd, by grind⟩, account, service, deleted⟩
  · intro service key
    by_cases eq : service = c.service
    · rw [eq, unused] at key
      cases key
    · exact used service ((updated eq).1 ▸ key)
  · rintro d (⟨hd, ne⟩ | rfl) released
    · have other : d.service ≠ c.service := fun eq => ne (apart d hd c mem (by simp [Call.removes, released]) removes eq)
      rw [(updated other).1, (updated other).2]
      exact kept d hd released
    · cases released
  · rintro d (⟨hd, ne⟩ | rfl) released
    · have other : d.service ≠ c.service := fun eq => ne (apart d hd c mem (by simp [Call.removes, released]) removes eq)
      rw [(updated other).1]
      exact freed d hd released
    · exact unused
  · grind [Call.removes]
  · grind [Call.removes]
  · exact fun a h => (marked a h).imp_right (still_removes rfl)
  · grind
  · grind

-- The account's directory goes.
theorem Inv.clear (inv : s.Inv) (mem : c ∈ s.calls) {deleted : Bool} (phase : c.phase = .released deleted) :
    ({ s with disk := s.disk.delete (·.1 = c.account) }.put c .cleared).Inv := by
  obtain ⟨safe, used, kept, freed, own, apart, marked, locked, old⟩ := inv
  have removes : c.removes = true := by simp [Call.removes, phase]
  simp only [readable_iff] at safe
  -- With the key still there, another agent uses it, and the record is written.
  have stays (key : s.keys c.service = true) : c.phase = .released false := by
    cases deleted
    · exact phase
    · exact absurd key (Bool.eq_false_iff.mp (freed c mem phase))
  have another (key : s.keys c.service = true) := (kept c mem (stays key)).1 key
  constructor
  all_goals simp only [readable_iff, State.put, mem_put mem, Table.mem_delete, decide_eq_false_iff_not]
  · rintro m ⟨hm, ne⟩ there
    rcases safe m hm there with ⟨key, readable⟩ | ⟨d, hd, account, service, deleted'⟩
    · refine .inl ⟨key, ?_⟩
      by_cases first : m.2 = c.account
      · rcases readable with written | stands
        · exact .inl written
        · have service : m.2 = c.service := own c mem removes (m.2, m.2) stands first
          rw [service] at key ⊢
          exact .inl ((kept c mem (stays key)).2 m hm service ne there)
      · exact readable.imp_right fun stands => ⟨stands, first⟩
    · have other : d ≠ c := fun eq => ne (account.symm.trans (congrArg Call.account eq))
      exact .inr ⟨d, .inl ⟨hd, other⟩, account, service, deleted'⟩
  · intro service key
    obtain ⟨m, hm, rfl⟩ := used service key
    by_cases eq : m.1 = c.account
    · rw [own c mem removes m hm eq] at key ⊢
      obtain ⟨m', hm', service, ne⟩ := another key
      exact ⟨m', ⟨hm', ne⟩, service⟩
    · exact ⟨m, ⟨hm, eq⟩, rfl⟩
  · rintro d (⟨hd, other⟩ | rfl) released
    · refine ⟨fun key => ?_, fun m hm => (kept d hd released).2 m hm.1⟩
      obtain ⟨m, hm, service, ne⟩ := (kept d hd released).1 key
      refine ⟨m, ⟨hm, fun eq => other ?_⟩, service, ne⟩
      exact apart d hd c mem (by simp [Call.removes, released]) removes (service.symm.trans (own c mem removes m hm eq))
    · cases released
  · grind
  · grind [Call.removes]
  · grind [Call.removes]
  · exact fun a h => (marked a h).imp_right (still_removes rfl)
  · grind
  · grind

-- An addition finds the key, under the lock.
theorem Inv.acquire (inv : s.Inv) (mem : c ∈ s.calls) (phase : c.phase = .asked) (free : s.adding = none)
    (key : s.keys c.service = true) : ({ s.put c .locked with adding := some c.id } : State).Inv := by
  obtain ⟨safe, used, kept, freed, own, apart, marked, locked, old⟩ := inv
  have adds : c.removes = false := by simp [Call.removes, phase]
  simp only [readable_iff] at safe
  constructor
  all_goals simp only [readable_iff, State.put, mem_put mem]
  · grind
  · exact used
  · grind
  · grind
  · grind [Call.removes]
  · grind [Call.removes]
  · grind
  · grind
  · grind

-- An agent's record is written, under the lock.
theorem Inv.write (inv : s.Inv) (mem : c ∈ s.calls) (phase : c.phase = .locked) (recorded : s.records c.service = true)
    (unremoved : ∀ c' ∈ s.calls, c'.removes = true → c'.account ≠ c.account)
    (same : ∀ m ∈ s.disk, m.1 = c.account → m.2 = c.service) :
    ({ s with adding := none, disk := s.disk.replace (c.account, c.service) }.put c .written).Inv := by
  obtain ⟨safe, used, kept, freed, own, apart, marked, locked, old⟩ := inv
  obtain ⟨key, lock⟩ := locked c mem phase
  have adds : c.removes = false := by simp [Call.removes, phase]
  have stays {m : String × String} (hm : m ∈ s.disk) : m ∈ s.disk.replace (c.account, c.service) := by
    rw [Table.mem_replace]
    by_cases eq : m.1 = c.account
    · exact .inr (Prod.ext eq (same m hm eq))
    · exact .inl ⟨hm, eq⟩
  have only {m : String × String} (hm : m ∈ s.disk.replace (c.account, c.service)) :
      m ∈ s.disk ∨ m = (c.account, c.service) := (Table.mem_replace.mp hm).imp_left And.left
  have ids := fun d (hd : d ∈ s.calls) => Table.eq_of_key_eq hd mem
  simp only [readable_iff] at safe
  constructor
  all_goals simp only [readable_iff, State.put, mem_put mem]
  · intro m hm there
    rcases only hm with hm | rfl
    · rcases safe m hm there with ⟨key, readable⟩ | ⟨d, hd, account, service, deleted⟩
      · exact .inl ⟨key, readable.imp_right stays⟩
      · exact .inr ⟨d, .inl ⟨hd, by grind⟩, account, service, deleted⟩
    · exact .inl ⟨key, .inl recorded⟩
  · intro service key
    obtain ⟨m, hm, eq⟩ := used service key
    exact ⟨m, stays hm, eq⟩
  · rintro d (⟨hd, -⟩ | rfl) released
    · obtain ⟨another, written⟩ := kept d hd released
      refine ⟨fun key => ?_, fun m hm service ne there => ?_⟩
      · obtain ⟨m, hm, rest⟩ := another key
        exact ⟨m, stays hm, rest⟩
      · rcases only hm with hm | rfl
        · exact written m hm service ne there
        · exact service ▸ recorded
    · cases released
  · grind
  · rintro d (⟨hd, -⟩ | rfl) removes m hm account
    · rcases only hm with hm | rfl
      · exact own d hd removes m hm account
      · exact absurd account.symm (unremoved d hd removes)
    · cases removes
  · grind [Call.removes]
  · grind
  · grind
  · grind

theorem find?_serviceOf {account : String} {m : String × String} (hm : m ∈ s.disk) (eq : m.1 = account) :
    m.2 = s.serviceOf account := by
  rw [State.serviceOf, ← eq, Table.find?_key hm]
  rfl

theorem alone_iff {service : String} : s.alone service = true ↔
    ∀ c ∈ s.calls, c.removes = true → c.service ≠ service := by
  simp only [State.alone, List.all_eq_true, decide_eq_true_eq, Bool.not_eq_true]
  refine forall₂_congr fun c _ => ?_
  cases c.removes <;> simp

theorem mem_begin (inv : s.Inv) (new : Call) (id : new.id = s.next) (c : Call) :
    c ∈ s.calls.replace new ↔ c ∈ s.calls ∨ c = new := by
  rw [Table.mem_replace, id]
  exact or_congr_left ⟨And.left, fun mem => ⟨mem, (inv.old c mem).ne⟩⟩

-- A removal begins.
theorem Inv.remove (inv : s.Inv) {account : String} {orphan : Bool} {removed : List String}
    (alone : s.alone (s.serviceOf account) = true)
    (marks : ∀ a ∈ removed, a ∈ s.removed ∨ (orphan = false ∧ a = account)) :
    ({ s with removed }.begin_
      { id := 0, account, service := s.serviceOf account, orphan, phase := .marked }).Inv := by
  have mem_begin := mem_begin inv { id := s.next, account, service := s.serviceOf account, orphan, phase := .marked } rfl
  obtain ⟨safe, used, kept, freed, own, apart, marked, locked, old⟩ := inv
  rw [alone_iff] at alone
  simp only [readable_iff] at safe
  constructor
  all_goals simp only [readable_iff, State.begin_, mem_begin]
  · grind
  · exact used
  · grind
  · grind
  · rintro d (hd | rfl) removes m hm eq
    · exact own d hd removes m hm eq
    · exact find?_serviceOf hm eq
  · grind
  · intro a ha
    rcases marks a ha with ha | ⟨rfl, rfl⟩
    · exact (marked a ha).imp_right fun ⟨d, hd, rest⟩ => ⟨d, .inl hd, rest⟩
    · exact .inr ⟨_, .inr rfl, rfl, rfl, rfl⟩
  · grind
  · grind

-- An addition begins.
theorem Inv.add (inv : s.Inv) {service account : String} : (s.add service account).Inv := by
  have begun {phase : Phase} (adds : phase = .asked ∨ phase = .written) :
      (s.begin_ { id := 0, account, service, phase }).Inv := by
    have mem_begin := mem_begin inv { id := s.next, account, service, phase } rfl
    obtain ⟨safe, used, kept, freed, own, apart, marked, locked, old⟩ := inv
    simp only [readable_iff] at safe
    constructor
    all_goals simp only [readable_iff, State.begin_, mem_begin]
    · grind
    · exact used
    · grind
    · grind
    · grind [Call.removes]
    · grind [Call.removes]
    · grind
    · grind
    · grind
  unfold State.add
  split <;> split
  · exact begun (.inr rfl)
  · exact inv
  · exact begun (.inl rfl)
  · exact inv

theorem Inv.crash (inv : s.Inv) (cond : s.calls.rows.all (·.phase ≠ .released true) = true) :
    ({ s with calls := ∅, removed := [], adding := none } : State).Inv := by
  have none {c : Call} (h : c ∈ (∅ : Table Call Call.id)) : False := Table.not_mem_empty h
  refine ⟨fun m hm there => ?_, inv.used, fun _ h => (none h).elim, fun _ h => (none h).elim, fun _ h => (none h).elim,
    fun _ h => (none h).elim, fun _ h => absurd h List.not_mem_nil, fun _ h => (none h).elim, fun _ h => (none h).elim⟩
  rcases inv.safe m hm there with safe | ⟨c, mem, -, -, deleted⟩
  · exact .inl safe
  · exact absurd deleted (of_decide_eq_true (List.all_eq_true.mp cond c mem))

theorem put_drop : (s.put c phase).drop { c with phase } = s.drop c := by
  have rows : (s.calls.replace { c with phase }).delete (·.id = c.id) = s.calls.delete (·.id = c.id) :=
    Table.ext_rows (by simp [Table.delete, Table.replace, Table.insert, List.filter_filter])
  unfold State.put State.drop
  rw [rows]

-- An orphan's directory goes, or stays.
theorem Inv.clear_orphan (inv : s.Inv) (mem : c ∈ s.calls) {deleted : Bool} (phase : c.phase = .released deleted) :
    ({ ({ s with disk := s.disk.delete (·.1 = c.account) } : State).drop c with
      gone := c.account :: s.gone } : State).Inv := by
  have cleared := inv.clear mem phase
  have here : { c with phase := .cleared } ∈
      (({ s with disk := s.disk.delete (·.1 = c.account) } : State).put c .cleared).calls :=
    Table.mem_replace.mpr (.inr rfl)
  have succeeded := cleared.succeed here (fun h => by cases h) s.index
  rwa [put_drop] at succeeded

theorem Inv.release (inv : s.Inv) (mem : c ∈ s.calls) (phase : c.phase = .forgotten) (free : s.adding = none)
    {ok cleared : Bool}
    (cond : ok = true ∨ c.orphan = false) : (s.release c ok cleared).Inv := by
  have removes : c.removes = true := by simp [Call.removes, phase]
  have failed (h : ¬ok = true) : (if c.orphan then s.put c (.released false) else s.fail c).Inv := by
    rw [cond.resolve_left h]
    exact inv.fail mem removes (by rw [phase]; decide)
  unfold State.release
  dsimp only
  split
  case isTrue others =>
    split
    case isFalse recorded =>
      refine inv.release_kept mem phase others ?_
      cases h : s.records c.service with
      | true  => exact .inl rfl
      | false => exact .inr (Bool.not_eq_true _ ▸ fun readable => recorded ⟨h, readable⟩)
    case isTrue =>
      split
      case isFalse failing => exact failed failing
      case isTrue => exact inv.record.release_kept mem phase others (.inl (record_records.mpr (.inr rfl)))
  case isFalse others =>
    split
    case isTrue => exact inv.release_deleted mem phase free others
    case isFalse failing => exact failed failing

theorem Inv.act (inv : s.Inv) (mem : c ∈ s.calls) {action : Action} (id : action.id? = some c.id) (cond : s.Cond action)
    (step : s.act c c.phase action = some s') : s'.Inv := by
  have found : s.calls.find? c.id = some c := Table.find?_key mem
  cases phase : c.phase with
  | marked =>
    rw [phase] at step
    have removes : c.removes = true := by simp [Call.removes, phase]
    have kept : c.phase ≠ .released true := by rw [phase]; decide
    cases action with
    | credentials _ ok =>
      simp only [State.act, Option.some.injEq] at step
      rw [← step]
      split
      · exact inv.advance mem removes kept (.inl rfl)
      · exact inv.fail mem removes kept
    | _ => cases step
  | forgotten =>
    rw [phase] at step
    cases action with
    | release _ ok cleared =>
      simp only [State.act] at step
      cases id
      split at step <;> cases step
      rename_i free
      refine inv.release mem phase free (cond.imp_right fun h => ?_)
      rw [found] at h
      exact h
    | _ => cases step
  | released deleted =>
    rw [phase] at step
    have removes : c.removes = true := by simp [Call.removes, phase]
    cases action with
    | clear _ ok =>
      cases id
      simp only [State.act] at step
      cases ok with
      | true =>
        simp only [↓reduceIte] at step
        split at step <;> cases step
        · exact inv.clear mem phase
        · exact inv.clear_orphan mem phase
      | false =>
        have kept : c.phase ≠ .released true := by
          have := cond.resolve_left Bool.false_ne_true
          rw [found] at this
          exact of_decide_eq_false this
        simp only [Bool.false_eq_true, ↓reduceIte] at step
        split at step <;> cases step
        · exact inv.advance mem removes kept (.inr rfl)
        · rename_i orphan
          have := inv.fail mem removes kept
          rw [not_not] at orphan
          rwa [State.fail, orphan] at this
    | _ => cases step
  | cleared =>
    rw [phase] at step
    have removes : c.removes = true := by simp [Call.removes, phase]
    have kept : c.phase ≠ .released true := by rw [phase]; decide
    cases action with
    | saveIndex _ ok =>
      simp only [State.act] at step
      split at step <;> cases step
      · exact inv.succeed mem kept _
      · exact inv.fail mem removes kept
    | _ => cases step
  | asked =>
    rw [phase] at step
    have adds : c.removes = false := by simp [Call.removes, phase]
    cases action with
    | acquire _ ok =>
      simp only [State.act] at step
      split at step
      case isTrue => cases step
      case isFalse free =>
        rw [not_not] at free
        split at step
        case isTrue key => cases step; exact inv.acquire mem phase free key.1
        case isFalse    => cases step; exact inv.give_up mem adds (.inl rfl)
    | _ => cases step
  | locked =>
    rw [phase] at step
    have adds : c.removes = false := by simp [Call.removes, phase]
    cases action with
    | write _ recorded ok =>
      cases id
      obtain ⟨-, -, unremoved, same⟩ := cond c mem rfl
      -- With the record written first, or not.
      have wrote {t : State} (inv : t.Inv) (calls : t.calls = s.calls) (disk : t.disk = s.disk)
          (step : (if ok = true ∧ t.records c.service = true then
            some ({ t with adding := none, disk := t.disk.replace (c.account, c.service) }.put c .written)
            else some ({ t.drop c with adding := none } : State)) = some s') : s'.Inv := by
        have mem' : c ∈ t.calls := calls ▸ mem
        split at step <;> cases step
        · rename_i done
          exact inv.write mem' phase done.2 (calls ▸ unremoved) (disk ▸ same)
        · exact inv.give_up mem' adds (.inr ⟨rfl, (inv.locked c mem' phase).2⟩)
      simp only [State.act] at step
      split at step
      · exact wrote inv.record rfl rfl step
      · exact wrote inv rfl rfl step
    | _ => cases step
  | written =>
    rw [phase] at step
    have adds : c.removes = false := by simp [Call.removes, phase]
    cases action with
    | finish _ recorded ok =>
      simp only [State.act] at step
      split at step <;> split at step <;> cases step
      · exact inv.record.give_up mem adds (.inl rfl)
      · exact inv.record.give_up mem adds (.inl rfl)
      · exact inv.give_up mem adds (.inl rfl)
      · exact inv.give_up mem adds (.inl rfl)
    | _ => cases step

theorem inv_step (inv : s.Inv) {action : Action} (cond : s.Cond action) (step : s.step action = some s') : s'.Inv := by
  have act (h : (action.id?.bind s.calls.find? >>= fun c => s.act c c.phase action) = some s') : s'.Inv := by
    obtain ⟨c, found, h⟩ := Option.bind_eq_some_iff.mp h
    obtain ⟨id, eq, found⟩ := Option.bind_eq_some_iff.mp found
    exact inv.act (Table.find?_mem found) (by rw [eq, Table.find?_key_eq found]) cond h
  cases action with
  | remove _ =>
    cases step
    exact inv.remove cond fun a mem => (List.mem_cons.mp mem).symm.imp_right fun eq => ⟨rfl, eq⟩
  | removeOrphan _ =>
    simp only [State.step] at step
    split at step <;> cases step
    · exact inv.remove cond fun a => .inl
    · exact inv
  | add _ _ => cases step; exact inv.add
  | crash   => cases step; exact inv.crash cond
  | _       => exact act step

theorem inv_start (h : agents.Start s) : s.Inv := by
  obtain ⟨calls, removed, -, -, safe, used⟩ := h
  have none {c : Call} (mem : c ∈ s.calls) : False := Table.not_mem_empty (calls ▸ mem)
  refine ⟨fun m mem _ => .inl (safe m mem), used, fun _ h => (none h).elim, fun _ h => (none h).elim,
    fun _ h => (none h).elim, fun _ h => (none h).elim, fun _ h => ?_, fun _ h => (none h).elim, fun _ h => (none h).elim⟩
  exact absurd (removed ▸ h) List.not_mem_nil

-- A service account's key stays while an agent uses it, and goes with the last.
theorem reachable_keys_kept (h : agents.Reachable Cond s) : s.KeysKept := by
  have inv : s.Inv := h.invariant (fun _ => inv_start) fun _ _ _ inv cond step => inv_step inv cond step
  refine ⟨fun m mem there idle => ?_, fun _ => inv.used⟩
  rcases inv.safe m mem there with safe | ⟨c, hc, account, -, deleted⟩
  · exact safe
  · exact absurd account (idle c hc (by simp [Call.removes, deleted]))

end State

section Runs

-- Two agents of one service account.
def scoutAndClerk : State where
  disk    := { rows := [("scout", "scout"), ("clerk", "scout")], nodup := by decide }
  keys    := (· = "scout")
  records := fun _ => false
  index   := ["scout", "clerk"]

theorem scoutAndClerk_start : agents.Start scoutAndClerk := by
  refine ⟨rfl, rfl, rfl, rfl, ?_, fun service key => ⟨("scout", "scout"), List.mem_cons_self, (of_decide_eq_true key).symm⟩⟩
  intro m mem
  rcases List.mem_cons.mp mem with rfl | mem
  · exact ⟨by decide, by decide⟩
  · rw [List.mem_singleton.mp mem]
    exact ⟨by decide, by decide⟩

instance (s : State) : DecidablePred s.Cond
  | .remove _         => inferInstanceAs (Decidable (_ = true))
  | .removeOrphan _   => inferInstanceAs (Decidable (_ = true))
  | .release _ _ _    => inferInstanceAs (Decidable (_ ∨ _))
  | .clear _ _        => inferInstanceAs (Decidable (_ ∨ _))
  | .crash            => inferInstanceAs (Decidable (_ = true))
  | .write _ _ _      => inferInstanceAs (Decidable (∀ c ∈ s.calls.rows, _ → _))
  | .add _ _          => inferInstanceAs (Decidable True)
  | .credentials _ _  => inferInstanceAs (Decidable True)
  | .saveIndex _ _    => inferInstanceAs (Decidable True)
  | .acquire _ _      => inferInstanceAs (Decidable True)
  | .finish _ _ _     => inferInstanceAs (Decidable True)

-- The first agent is removed, and the second then has the key.
theorem reachable_keys_kept_clerk : ∃ s, agents.Reachable State.Cond s ∧ s.gone = ["scout"] ∧ s.KeysKept := by
  have run : (agents.run State.Cond scoutAndClerk [.remove "scout", .credentials 0 true, .release 0 true true,
      .clear 0 true, .saveIndex 0 true]).any (·.gone = ["scout"]) := by decide +kernel
  obtain ⟨s, hs, gone⟩ := (Option.any_eq_true _ _).mp run
  have reached := System.Reachable.run (.start scoutAndClerk_start) hs
  exact ⟨s, reached, of_decide_eq_true gone, State.reachable_keys_kept reached⟩

-- Both are removed at once, and the second removal fails after the first deleted the key that both use.
theorem key_of_kept_agent_deleted : ¬∀ s, agents.Reachable (fun _ _ => True) s → s.KeysKept := by
  intro claim
  have run : (agents.run (fun _ _ => True) scoutAndClerk [.remove "scout", .remove "clerk", .credentials 0 true,
      .release 0 true true, .clear 0 true, .saveIndex 0 true, .credentials 1 false]).any fun s =>
        s.disk.rows = [("clerk", "scout")] ∧ s.gone = ["scout"] ∧ s.calls.rows = [] ∧ s.keys "scout" = false := by
    decide +kernel
  obtain ⟨s, hs, lost⟩ := (Option.any_eq_true _ _).mp run
  obtain ⟨disk, gone, calls, key⟩ := of_decide_eq_true lost
  have mem : ("clerk", "scout") ∈ s.disk := by rw [← Table.mem_rows, disk]; exact List.mem_cons_self
  have kept := (claim s (.run (.start scoutAndClerk_start) hs)).1 _ mem (by rw [gone]; decide) fun c hc => by
    rw [← Table.mem_rows, calls] at hc
    exact absurd hc List.not_mem_nil
  exact Bool.false_ne_true (key.symm.trans kept.1)

end Runs

end Kaluta.Agents.Release
