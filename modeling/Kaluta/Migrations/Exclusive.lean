import Kaluta.Lib.Execution
import Kaluta.Lib.Table

-- Openers of one store, each of its own build, that bring its schema up to date.
namespace Kaluta.Migrations

-- How often an opener that found the store busy tries again.
def RETRIES : Nat := 50

inductive Error
  -- The store's schema is newer than the build, or older and this opener may not migrate it.
  | newer
  | older
  -- The database was busy to the end, or a statement failed.
  | busy
  | failed
  deriving DecidableEq

-- The next statement of an opener.
inductive Phase
  | reading
  | beginning (version : Nat)
  -- The write lock is held: the version is read again, the step is run, `user_version` is set and all is committed.
  | begun (version : Nat)
  | running (version : Nat)
  | stamping (version : Nat)
  | committing (version : Nat)
  -- The store's version when the opener succeeded.
  | opened (version : Nat)
  | refused (error : Error)
  deriving DecidableEq

def Phase.locks : Phase → Bool
  | .begun _ | .running _ | .stamping _ | .committing _ => true
  | _                                                   => false

-- Whether an opener has read the version and goes on to migrate.
def Phase.migrates : Phase → Bool
  | .beginning _ => true
  | phase        => phase.locks

structure Opener where
  id       : Nat
  -- The schema version of its build.
  target   : Nat
  -- Whether the store is another process's, which is not migrated.
  existing : Bool := false
  attempt  : Nat := 0
  phase    : Phase := .reading
  deriving DecidableEq

structure State where
  -- What is committed: `user_version`, and the steps that were applied.
  version : Nat := 0
  applied : List Nat := []
  -- Who holds the write lock.
  lock    : Option Nat := none
  openers : Table Opener Opener.id := ∅

inductive Action
  | new (id target : Nat) (existing : Bool)
  | statement (id : Nat)
  | busy (id : Nat)
  | fail (id : Nat)
  | crash (id : Nat)

namespace State

variable (s : State)

def put (o : Opener) (phase : Phase) : State :=
  { s with openers := s.openers.replace { o with phase } }

-- A transaction that was not committed is rolled back.
def release (o : Opener) : State :=
  if o.phase.locks then { s with lock := none } else s

def checkVersion (o : Opener) : Phase :=
  if s.version = o.target then .opened s.version
  else if s.version < o.target then .refused .older
  else .refused .newer

-- On to the step after `version`, if the build has one.
def advance (o : Opener) (version : Nat) : State :=
  s.put o (if version < o.target then .beginning (version + 1) else .opened s.version)

def migrate (o : Opener) : State :=
  if o.target < s.version then s.put o (.refused .newer) else s.advance o s.version

def statement (o : Opener) : Option State :=
  match o.phase with
  | .reading           => some (if o.existing then s.put o (s.checkVersion o) else s.migrate o)
  | .beginning version => if s.lock = none then some ({ s with lock := some o.id }.put o (.begun version)) else none
  -- Another opener may have applied the step since the version was first read.
  | .begun version     =>
    if version ≤ s.version then some ({ s with lock := none }.advance o version)
    else some (s.put o (.running version))
  | .running version    => some (s.put o (.stamping version))
  | .stamping version   => some (s.put o (.committing version))
  | .committing version =>
    some ({ s with version, applied := s.applied ++ [version], lock := none }.advance o version)
  | .opened _           => none
  | .refused _          => none

-- The whole opening is tried again, unless the opener may not wait.
def busy (o : Opener) : State :=
  if o.attempt < RETRIES ∧ ¬o.existing then
    { s.release o with openers := s.openers.replace { o with attempt := o.attempt + 1, phase := .reading } }
  else (s.release o).put o (.refused .busy)

def step : Action → Option State
  | .new id target existing => do some { s with openers := ← s.openers.insert? { id, target, existing } }
  | .statement id => do s.statement (← s.openers.find? id)
  | .busy id => do
    let o ← s.openers.find? id
    if o.phase = .reading ∨ o.phase.migrates then some (s.busy o) else none
  | .fail id => do
    let o ← s.openers.find? id
    if o.phase = .reading ∨ o.phase.migrates then some ((s.release o).put o (.refused .failed)) else none
  | .crash id => do
    let o ← s.openers.find? id
    some { s.release o with openers := s.openers.delete (·.id = id) }

end State

-- A store that builds before have migrated, or a new one.
def opening : System State Action where
  Start s := s.applied = List.range' 1 s.version ∧ s.lock = none ∧ s.openers = ∅
  step    := State.step

end Kaluta.Migrations

-- What openers of builds of different ages do to one store.
namespace Kaluta.Migrations

variable {s s' : State} {o o' : Opener} {phase : Phase}

-- The steps are applied once each and in order, the recorded version is their number, and who succeeds finds
-- the store at its own build's version.
structure State.Exact (s : State) : Prop where
  once     : s.applied.Nodup
  ordered  : s.applied.Pairwise (· < ·)
  recorded : s.version = s.applied.length
  opened   : ∀ o ∈ s.openers, ∀ version, o.phase = .opened version → version = o.target

-- No step is committed that is beyond the last one of an opener that is migrating.
def State.Unsurpassed (s : State) : Action → Prop
  | .statement id => ∀ o ∈ s.openers.rows, o.id = id → ∀ o' ∈ s.openers.rows, o'.phase.migrates = true →
      o.phase = .committing (s.version + 1) → s.version < o'.target
  | _             => True

instance (s : State) : DecidablePred s.Unsurpassed
  | .statement _ => inferInstanceAs (Decidable (∀ o ∈ s.openers.rows, _ → ∀ o' ∈ s.openers.rows, _ → _ → _))
  | .new _ _ _   => inferInstanceAs (Decidable True)
  | .busy _      => inferInstanceAs (Decidable True)
  | .fail _      => inferInstanceAs (Decidable True)
  | .crash _     => inferInstanceAs (Decidable True)

-- What an opener knows of the version, where `surpassed` says that a newer build may have gone further.
def Opener.Fits (o : Opener) (version : Nat) : Prop :=
  match o.phase with
  | .reading      => True
  | .beginning v  => v ≤ version + 1 ∧ v ≤ o.target ∧ version ≤ o.target
  | .begun v      => v ≤ version + 1 ∧ v ≤ o.target ∧ version ≤ o.target
  | .running v    => v = version + 1 ∧ v ≤ o.target
  | .stamping v   => v = version + 1 ∧ v ≤ o.target
  | .committing v => v = version + 1 ∧ v ≤ o.target
  | .opened v     => v = o.target
  | .refused _    => True

structure State.Inv (s : State) : Prop where
  applied : s.applied = List.range' 1 s.version
  lock    : ∀ o ∈ s.openers, o.phase.locks = true → s.lock = some o.id
  fits    : ∀ o ∈ s.openers, o.Fits s.version

namespace State

variable {t : State}

-- One opener goes on to a phase that fits the version, and the lock is held by who needs it.
theorem Inv.put (applied : t.applied = List.range' 1 t.version) (openers : t.openers = s.openers)
    (lock : ∀ o' ∈ s.openers, o'.id ≠ o.id → o'.phase.locks = true → t.lock = some o'.id)
    (fits : ∀ o' ∈ s.openers, o'.id ≠ o.id → o'.Fits t.version)
    (own : phase.locks = true → t.lock = some o.id) (fit : Opener.Fits { o with phase } t.version) :
    (t.put o phase).Inv := by
  constructor
  case applied => exact applied
  case lock =>
    intro o' mem locks
    obtain ⟨mem, ne⟩ | rfl := Table.mem_replace.mp mem
    · exact lock o' (openers ▸ mem) ne locks
    · exact own locks
  case fits =>
    intro o' mem
    obtain ⟨mem, ne⟩ | rfl := Table.mem_replace.mp mem
    · exact fits o' (openers ▸ mem) ne
    · exact fit

-- No other opener holds the lock that one holds.
theorem Inv.alone (h : s.Inv) (mem : o ∈ s.openers) (locks : o.phase.locks = true) (mem' : o' ∈ s.openers)
    (ne : o'.id ≠ o.id) : o'.phase.locks = false := by
  by_contra locks'
  have held := (h.lock o' mem' (Bool.not_eq_false _ ▸ locks')).symm.trans (h.lock o mem locks)
  exact ne (Option.some.inj held)

-- The opener goes on in a phase without the lock, which it did not hold, or gives it up.
theorem Inv.put_free (h : s.Inv) (free : phase.locks = false) (fit : Opener.Fits { o with phase } s.version) :
    (s.put o phase).Inv :=
  Inv.put h.applied rfl (fun o' mem' _ => h.lock o' mem') (fun o' mem' _ => h.fits o' mem')
    (fun locks => by rw [free] at locks; cases locks) fit

theorem Inv.put_released (h : s.Inv) (mem : o ∈ s.openers) (locks : o.phase.locks = true)
    (free : phase.locks = false) (fit : Opener.Fits { o with phase } s.version) :
    (({ s with lock := none } : State).put o phase).Inv := by
  refine Inv.put h.applied rfl ?_ (fun o' mem' _ => h.fits o' mem') (fun locks => by rw [free] at locks; cases locks) fit
  intro o' mem' ne locks'
  rw [h.alone mem locks mem' ne] at locks'
  cases locks'

-- A phase of the opener that holds the lock, within its transaction.
theorem Inv.put_locked (h : s.Inv) (mem : o ∈ s.openers) (locks : o.phase.locks = true)
    (fit : Opener.Fits { o with phase } s.version) : (s.put o phase).Inv :=
  Inv.put h.applied rfl (fun o' mem' _ => h.lock o' mem') (fun o' mem' _ => h.fits o' mem')
    (fun _ => h.lock o mem locks) fit

-- The opener's transaction is rolled back, and it starts again, gives up or is gone.
theorem Inv.release {openers : Table Opener Opener.id} (h : s.Inv) (mem : o ∈ s.openers)
    (rest : ∀ r ∈ openers, (r ∈ s.openers ∧ r.id ≠ o.id) ∨ (r.phase.locks = false ∧ r.Fits s.version)) :
    ({ s.release o with openers } : State).Inv := by
  have lock : ∀ r ∈ openers, r.phase.locks = true → (s.release o).lock = some r.id := by
    intro r hr locks
    obtain ⟨mem', ne⟩ | ⟨free, _⟩ := rest r hr
    case inr => rw [free] at locks; cases locks
    unfold State.release
    split
    case isTrue held => rw [h.alone mem held mem' ne] at locks; cases locks
    case isFalse     => exact h.lock r mem' locks
  have same : (s.release o).applied = s.applied ∧ (s.release o).version = s.version := by
    unfold State.release
    split <;> exact ⟨rfl, rfl⟩
  constructor
  case applied => simpa only [same.1, same.2] using h.applied
  case lock    => exact lock
  case fits =>
    intro r hr
    rw [show ({ s.release o with openers } : State).version = s.version from same.2]
    exact (rest r hr).elim (fun kept => h.fits r kept.1) And.right

theorem Inv.release_replace {r : Opener} (h : s.Inv) (mem : o ∈ s.openers) (id : r.id = o.id)
    (free : r.phase.locks = false) (fit : r.Fits s.version) :
    ({ s.release o with openers := s.openers.replace r } : State).Inv := by
  apply h.release mem
  intro r' hr
  obtain ⟨mem', ne⟩ | rfl := Table.mem_replace.mp hr
  · exact .inl ⟨mem', id ▸ ne⟩
  · exact .inr ⟨free, fit⟩

theorem Inv.release_refused {error : Error} (h : s.Inv) (mem : o ∈ s.openers) :
    ((s.release o).put o (.refused error)).Inv := by
  have same : (s.release o).openers = s.openers := by
    unfold State.release
    split <;> rfl
  unfold State.put
  rw [same]
  exact h.release_replace mem rfl rfl trivial

theorem locks_advance {v w target : Nat} :
    (if v < target then Phase.beginning (v + 1) else .opened w).locks = false := by
  split <;> rfl

-- Where an opener is after a step that the store has, if the store is not beyond the opener's build.
theorem fits_advance {v w : Nat} (le : v ≤ w) (within : w ≤ o.target) (last : v ≤ o.target) :
    Opener.Fits { o with phase := if v < o.target then .beginning (v + 1) else .opened w } w := by
  split
  case isTrue lt => exact ⟨Nat.succ_le_succ le, lt, within⟩
  case isFalse   => simp only [Opener.Fits]; omega

end State

-- A phase without the lock outlasts another opener's commit.
theorem Opener.Fits.commit {version : Nat} (h : o.Fits version) (free : o.phase.locks = false)
    (within : o.phase.migrates = true → version < o.target) : o.Fits (version + 1) := by
  unfold Opener.Fits at *
  cases phase : o.phase with
  | beginning v =>
    simp only [phase] at h ⊢
    have := within (by rw [phase]; rfl)
    omega
  | begun      => simp [phase, Phase.locks] at free
  | running    => simp [phase, Phase.locks] at free
  | stamping   => simp [phase, Phase.locks] at free
  | committing => simp [phase, Phase.locks] at free
  | reading    => trivial
  | opened     => simpa only [phase] using h
  | refused    => trivial

namespace State

theorem Inv.reading (h : s.Inv) (o : Opener) :
    (if o.existing then s.put o (s.checkVersion o) else s.migrate o).Inv := by
  split
  case isTrue =>
    unfold checkVersion
    split_ifs with same
    · exact h.put_free rfl same
    · exact h.put_free rfl trivial
    · exact h.put_free rfl trivial
  case isFalse =>
    unfold migrate
    split
    case isTrue         => exact h.put_free rfl trivial
    case isFalse within =>
      have within := Nat.le_of_not_lt within
      exact h.put_free locks_advance (fits_advance le_rfl within within)

theorem Inv.commit {v : Nat} (h : s.Inv) (mem : o ∈ s.openers) (phase : o.phase = .committing v)
    (ok : s.Unsurpassed (.statement o.id)) :
    (({ s with version := v, applied := s.applied ++ [v], lock := none } : State).advance o v).Inv := by
  have fit := h.fits o mem
  have locks : o.phase.locks = true := by rw [phase]; rfl
  simp only [Opener.Fits, phase] at fit
  obtain ⟨rfl, last⟩ := fit
  refine Inv.put (s := s) ?_ rfl ?_ ?_ (fun locks => ?_) ?_
  · rw [h.applied, List.range'_1_concat, Nat.add_comm]
  · intro o' mem' ne locks'
    rw [h.alone mem locks mem' ne] at locks'
    cases locks'
  · intro o' mem' ne
    exact (h.fits o' mem').commit (h.alone mem locks mem' ne) fun migrates => ok o mem rfl o' mem' migrates phase
  · rw [locks_advance] at locks; cases locks
  · exact fits_advance le_rfl last last

theorem Inv.statement (h : s.Inv) (mem : o ∈ s.openers) (ok : s.Unsurpassed (.statement o.id))
    (hs : s.statement o = some s') : s'.Inv := by
  have fit := h.fits o mem
  unfold Opener.Fits at fit
  unfold State.statement at hs
  cases phase : o.phase <;> simp only [phase] at hs fit
  case reading => cases hs; exact h.reading o
  case beginning v =>
    split at hs
    case isFalse     => cases hs
    case isTrue free =>
      cases hs
      refine Inv.put h.applied rfl ?_ (fun o' mem' _ => h.fits o' mem') (fun _ => rfl) fit
      intro o' mem' _ locks
      exact absurd (free.symm.trans (h.lock o' mem' locks)) (by simp)
  case begun v =>
    split at hs
    case isTrue now =>
      cases hs
      exact h.put_released mem (by rw [phase]; rfl) locks_advance (fits_advance now fit.2.2 fit.2.1)
    case isFalse now => cases hs; exact h.put_locked mem (by rw [phase]; rfl) ⟨by omega, fit.2.1⟩
  case running v    => cases hs; exact h.put_locked mem (by rw [phase]; rfl) fit
  case stamping v   => cases hs; exact h.put_locked mem (by rw [phase]; rfl) fit
  case committing v => cases hs; exact h.commit mem phase ok
  case opened       => cases hs
  case refused      => cases hs

theorem Inv.step {a : Action} (h : s.Inv) (ok : s.Unsurpassed a) (hs : s.step a = some s') : s'.Inv := by
  cases a <;> simp only [State.step] at hs
  case new id target existing =>
    obtain ⟨openers, inserted, hs⟩ := Option.bind_eq_some_iff.mp hs
    cases hs
    constructor
    case applied => exact h.applied
    case lock =>
      intro o mem locks
      obtain mem | rfl := (Table.mem_insert? inserted).mp mem
      · exact h.lock o mem locks
      · cases locks
    case fits =>
      intro o mem
      obtain mem | rfl := (Table.mem_insert? inserted).mp mem
      · exact h.fits o mem
      · trivial
  all_goals
    obtain ⟨o, found, act⟩ := Option.bind_eq_some_iff.mp hs
    have mem := Table.find?_mem found
    obtain rfl := Table.find?_key_eq found
  case statement => exact h.statement mem ok act
  case busy =>
    split at act
    case isFalse => cases act
    case isTrue =>
      cases act
      unfold State.busy
      split
      case isTrue  => exact h.release_replace mem rfl rfl trivial
      case isFalse => exact h.release_refused mem
  case fail =>
    split at act
    case isTrue  => cases act; exact h.release_refused mem
    case isFalse => cases act
  case crash =>
    cases act
    apply h.release mem
    intro r hr
    obtain ⟨mem', ne⟩ := Table.mem_delete.mp hr
    exact .inl ⟨mem', of_decide_eq_false ne⟩

theorem reachable_exact (h : opening.Reachable Unsurpassed s) : s.Exact := by
  have inv : s.Inv := by
    apply h.invariant
    case start =>
      rintro s ⟨applied, _, none⟩
      exact ⟨applied, by simp [none], by simp [none]⟩
    case step => exact fun _ _ _ h ok hs => h.step ok hs
  constructor
  case once     => rw [inv.applied]; exact List.nodup_range'
  case ordered  => rw [inv.applied]; exact List.pairwise_lt_range'
  case recorded => rw [inv.applied, List.length_range']
  case opened =>
    intro o mem version phase
    simpa only [Opener.Fits, phase] using inv.fits o mem

end State

-- An opener applies the one step of its build, all statements of it.
def migrateOnce (id : Nat) : List Action :=
  [.statement id, .statement id, .statement id, .statement id, .statement id, .statement id]

-- Two openers of one build both read the new store's version, and the second finds the step applied.
theorem reachable_exact_together :
    ∃ s : State, s.Exact ∧ s.version = 1 ∧ s.openers.rows.map Opener.phase = [.opened 1, .opened 1] := by
  have run : (opening.run State.Unsurpassed {}
      ([.new 1 1 false, .new 2 1 false, .statement 2] ++ migrateOnce 1 ++ [.statement 2, .statement 2])).any fun s =>
        s.version = 1 ∧ s.openers.rows.map Opener.phase = [.opened 1, .opened 1] := by decide
  obtain ⟨s, hs, done⟩ := (Option.any_eq_true _ _).mp run
  have done := of_decide_eq_true done
  exact ⟨s, State.reachable_exact (.run (.start ⟨rfl, rfl, rfl⟩) hs), done.1, done.2⟩

-- An opener of the build before reads the version of a new store, a newer build applies both of its steps, and the
-- older one finds its step applied and takes the store.
theorem newer_store_opened : ¬∀ s, opening.Reachable (fun _ _ => True) s → s.Exact := by
  intro claim
  have run : (opening.run (fun _ _ => True) {}
      ([.new 1 1 false, .new 2 2 false, .statement 1] ++ migrateOnce 2 ++ (migrateOnce 2).tail ++
        [.statement 1, .statement 1])).any fun s => ⟨1, 1, false, 0, .opened 2⟩ ∈ s.openers.rows := by decide
  obtain ⟨s, hs, surpassed⟩ := (Option.any_eq_true _ _).mp run
  exact absurd ((claim s (.run (.start ⟨rfl, rfl, rfl⟩) hs)).opened _ (of_decide_eq_true surpassed) 2 rfl) (by decide)

end Kaluta.Migrations
