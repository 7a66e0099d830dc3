import Kaluta.Download.Engine
import Kaluta.Download.Queue

-- No mail of the window is forgotten: what is to hold, when, and what each kind of step keeps of it.
namespace Kaluta.Download

namespace State

variable (found : Phase → Mail → Bool) (s : State)

-- Whether the window is to be whole: it has been listed once, or is being listed for the first time.
def fills : Bool :=
  s.db.bootstrapped || s.calls.rows.any (·.prog.contains (.setBootstrapped true))

-- Whether a tiering asks for no less than the stored body window.
def fits (headersFrom : Option Nat) : Bool :=
  headersFrom = none ∨ headersFrom = (s.db.bodyWindow.getD .month).headersFrom

-- Whether no call is under way other than headers passes and backfill batches.
def quiet : Bool :=
  s.calls.rows.all (·.prog.all (· ∈ [Instr.store, .fetchHeaders, .waits, .promote]))

-- Once sync has started and while nothing is listed, each message of the window is stored as its tier asks or queued,
-- and when the queue is empty it is stored.
def Kept : Prop :=
  s.syncing = true → s.quiet = true → ∀ m ∈ s.mail, ∀ p ∈ phasesFor (s.db.window.getD .halfYear), found p m = true →
    s.db.keeps (s.tiered p) m.id = true ∧ (s.db.queue.rows = [] → s.db.has (s.tiered p) m.id = true)

-- What the next instruction of a call finds: the window that is recorded is the stored one, a window that changes has
-- been listed once or is not being listed, a tiering that is the recorded one is the one that is queued and no listing
-- was broken off, a page is queued under a tiering that is not out of date, and sync starts when no listing was broken
-- off.
def keepsOn (c : Call) : Bool :=
  match c.prog with
  | .record :: _               => !s.fills || c.window = s.db.window.getD .halfYear
  | .clear :: _                => s.db.bootstrapped || !s.fills
  | .compare :: _              => !s.fills || s.db.tiers.getD "flat" ≠ tiersTag c.headersFrom ||
    !s.broken && s.tierings.all s.fits
  | .pages _ _ :: _            => !s.fills || s.fits c.headersFrom
  | .writeWant :: _            => !s.db.bootstrapped || !s.broken
  | .setBootstrapped true :: _ => !s.broken
  | _                          => true

-- The first listing of the rest follows the Inbox's. Once sync has started, no call fails that owes a listing.
def keeping : Action → Bool
  | .bootstrapListRest         => s.mail.rows.all fun m => (Part.inbox.of .month).all fun p =>
    !found p m || s.db.keeps p.priority m.id
  | .loadEveryHeaderStored _ _ => !s.syncing
  | .goOn call _               => (s.calls.find? call).all s.keepsOn
  | .fail call                 => (s.calls.find? call).all fun c => !(s.syncing && c.owes)
  | .refetchAll | .startResync | .changed _ | .urgent _ | .opened _ => false
  | _                          => true

end State

section Phases

variable {window : SyncWindow} {phase : Phase}

-- The phases that every window has.
theorem Part.mem_fixed {part : Part} {window' : SyncWindow} (less : phase.priority < WINDOW_PRIORITY)
    (h : phase ∈ part.of window) : phase ∈ part.of window' := by
  have fixed : ∀ p ∈ part.of window, p.priority < WINDOW_PRIORITY → p ∈ part.of window' := by
    cases part <;> cases window <;> cases window' <;> decide
  exact fixed phase h less

theorem mem_own (h : phase ∈ phasesFor window) (more : ¬phase.priority < WINDOW_PRIORITY) : phase ∈ Part.own.of window := by
  have own : ∀ p ∈ phasesFor window, ¬p.priority < WINDOW_PRIORITY → p ∈ Part.own.of window := by
    cases window <;> decide
  exact own phase h more

theorem mem_inbox_or_rest {window' : SyncWindow} (h : phase ∈ phasesFor window) (less : phase.priority < WINDOW_PRIORITY) :
    phase ∈ Part.inbox.of .month ∨ phase ∈ Part.rest.of window' := by
  have fixed : ∀ p ∈ phasesFor window, p.priority < WINDOW_PRIORITY →
      p ∈ Part.inbox.of .month ∨ p ∈ Part.rest.of window' := by
    cases window <;> cases window' <;> decide
  exact fixed phase h less

theorem own_subset_rest (h : phase ∈ Part.own.of window) : phase ∈ Part.rest.of window := by
  have own : ∀ p ∈ Part.own.of window, p ∈ Part.rest.of window := by cases window <;> decide
  exact own phase h

theorem queuePriority_fixed {body : BodyWindow} (less : phase.priority < WINDOW_PRIORITY) :
    queuePriority phase body.headersFrom = phase.priority := by
  simp only [WINDOW_PRIORITY] at less
  cases body <;> simp only [BodyWindow.headersFrom, queuePriority] <;> (try split) <;> omega

theorem le_queuePriority {headersFrom : Option Nat} : phase.priority ≤ queuePriority phase headersFrom := by
  cases headersFrom
  case none => exact le_rfl
  case some =>
    simp only [queuePriority]
    split <;> omega

end Phases

-- Whether instructions list a phase, where a window that is yet to be read is `now`.
def listsPhase (now : SyncWindow) (phase : Phase) : SyncWindow → List Instr → Bool
  | _     , []                   => false
  | _     , .readWindow :: prog  => listsPhase now phase now prog
  | window, .list part _ :: prog => phase ∈ part.of window || listsPhase now phase window prog
  | window, .phase p _ :: prog   => p = phase || listsPhase now phase window prog
  | window, _ :: prog            => listsPhase now phase window prog

theorem listsPhase_phases {now window : SyncWindow} {phase : Phase} {prog : List Instr} {phases : List Phase} {r : Bool} :
    listsPhase now phase window (phases.map (.phase · r) ++ prog) =
      (decide (phase ∈ phases) || listsPhase now phase window prog) := by
  induction phases
  case nil            => simp
  case cons p phases ih => simp [listsPhase, ih, Bool.or_assoc, eq_comm]

-- The phases that every window has are listed whatever the window.
theorem listsPhase_fixed {now now' window window' : SyncWindow} {phase : Phase} {prog : List Instr}
    (less : phase.priority < WINDOW_PRIORITY) (h : listsPhase now phase window prog = true) :
    listsPhase now' phase window' prog = true := by
  induction prog generalizing window window'
  case nil            => cases h
  case cons i prog ih =>
    cases i
    case readWindow  => exact ih h
    case list part r =>
      simp only [listsPhase, Bool.or_eq_true, decide_eq_true_eq] at h ⊢
      exact h.imp (Part.mem_fixed less) ih
    case phase p r   =>
      simp only [listsPhase, Bool.or_eq_true, decide_eq_true_eq] at h ⊢
      exact h.imp_right ih
    all_goals exact ih h

theorem listsPhase_cons {now window : SyncWindow} {phase : Phase} {i : Instr} {prog : List Instr}
    (none_ : i.relists = false) : listsPhase now phase window (i :: prog) = listsPhase now phase window prog := by
  cases i <;> first | rfl | cases none_

theorem relists_of_listsPhase {now window : SyncWindow} {phase : Phase} {prog : List Instr}
    (h : listsPhase now phase window prog = true) : prog.any (·.relists) = true := by
  induction prog generalizing window
  case nil            => cases h
  case cons i prog ih =>
    rw [List.any_cons, Bool.or_eq_true]
    cases i
    case readWindow | list | phase => exact .inl rfl
    all_goals exact .inr (ih h)

-- How the programs go on.
def shaped : List Instr → Bool
  | []        => true
  | i :: prog => shaped prog && match i with
    | .setWindow _ | .widen _ => prog = relistWindow
    | .setBodyWindow _        => prog = ensureTiers
    | .compare                => prog = relistWindow ++ [.writeWant]
    | .clear                  => prog = relistWindow.tail ∨ prog = relistWindow.tail ++ [.writeWant]
    | .setBootstrapped on     => on ∧ prog = []
    | .fetchHeaders           => prog = [.waits, .promote]
    | .waits                  => prog = [.promote]
    | _                       => true

theorem shaped_tail {i : Instr} {prog : List Instr} (h : shaped (i :: prog) = true) : shaped prog = true :=
  (Bool.and_eq_true_iff.mp h).left

theorem shaped_phases {phases : List Phase} {r : Bool} {prog : List Instr} :
    shaped (phases.map (.phase · r) ++ prog) = shaped prog := by
  induction phases
  case nil            => rfl
  case cons p phases ih => simp [shaped, ih]

namespace Call

variable (c : Call)

-- Whether a call is to list a message of a phase.
def remains (now : SyncWindow) (phase : Phase) (id : String) : Bool :=
  listsPhase now phase c.window c.prog || match c.prog with
    | .pages p _ :: _ => p = phase && id ∈ c.ids
    | _               => false

structure Sound : Prop where
  shaped : shaped c.prog = true
  lists  : c.lists = true → c.changed = true
  before : .compare ∈ c.prog → c.lists = false
  widens : ∀ b, .widen b ∈ c.prog → c.changed = false

variable {c} {now now' : SyncWindow} {phase : Phase} {id : String}

theorem owes_of_remains (changed : c.changed = true) (h : c.remains now phase id = true) : c.owes = true := by
  rw [owes, changed, Bool.true_and]
  rcases Bool.or_eq_true_iff.mp h with lists | page
  · exact relists_of_listsPhase lists
  · split at page
    case h_1 e => simp [e, Instr.relists]
    case h_2   => cases page

theorem remains_fixed (less : phase.priority < WINDOW_PRIORITY) (h : c.remains now phase id = true) :
    c.remains now' phase id = true :=
  Bool.or_eq_true_iff.mpr ((Bool.or_eq_true_iff.mp h).imp_left (listsPhase_fixed less))

-- A call that goes on with other instructions.
structure GoesOn (c c' : Call) (prog : List Instr) : Prop where
  id      : c'.id = c.id
  prog    : c'.prog = prog
  window  : c'.window = c.window
  lists   : c'.lists = c.lists
  changed : c'.changed = c.changed

-- A call that goes on behind an instruction that lists nothing.
theorem remains_tail {i : Instr} {prog : List Instr} {c' : Call} (e : c.prog = i :: prog) (none_ : i.relists = false)
    (on : c.GoesOn c' prog) (h : c.remains now phase id = true) : c'.remains now phase id = true := by
  simp only [remains, e, Bool.or_eq_true] at h
  rcases h with h | page
  · simp only [remains, Bool.or_eq_true]
    exact .inl (by rw [on.prog, on.window, ← listsPhase_cons none_]; exact h)
  · split at page
    case h_1 e' => cases e'; cases none_
    case h_2    => cases page

theorem Sound.tail {i : Instr} {prog : List Instr} {c' : Call} (h : c.Sound) (e : c.prog = i :: prog)
    (prog' : c'.prog = prog) (lists : c'.lists = c.lists) (changed : c'.changed = c.changed) : c'.Sound where
  shaped := prog' ▸ shaped_tail (e ▸ h.shaped)
  lists  := by rw [lists, changed]; exact h.lists
  before := fun mem => lists ▸ h.before (e ▸ List.mem_cons_of_mem i (prog' ▸ mem))
  widens := fun b mem => changed ▸ h.widens b (e ▸ List.mem_cons_of_mem i (prog' ▸ mem))

end Call

namespace State

variable {found : Phase → Mail → Bool} {s s' t u : State} {c c' : Call}

-- The window's start, and what it is when none is stored.
abbrev now (s : State) : SyncWindow :=
  s.db.window.getD .halfYear

-- Whether a message is stored or queued under some tiering that was listed since the last clearing.
def placed (s : State) (p : Phase) (id : String) : Prop :=
  ∃ hf ∈ s.tierings, s.db.keeps (queuePriority p hf) id = true

-- Every message of a phase that all windows have is stored or queued, once it was listed. Every other one of the window
-- is so too, or a call has it to list, unless a listing was broken off; and the tierings fit unless a call is to clear.
structure Whole (found : Phase → Mail → Bool) (s : State) : Prop where
  calls    : ∀ c ∈ s.calls, c.Sound
  sync     : s.syncing = true → s.broken = false ∧ s.db.bootstrapped = true
  fixed    : s.db.bootstrapped = true → ∀ m ∈ s.mail, ∀ p ∈ phasesFor s.now, p.priority < WINDOW_PRIORITY →
    found p m = true → s.db.keeps p.priority m.id = true
  rest     : ∀ c ∈ s.calls, .setBootstrapped true ∈ c.prog → ∀ m ∈ s.mail, ∀ p ∈ phasesFor s.now,
    p.priority < WINDOW_PRIORITY → found p m = true →
      s.db.keeps p.priority m.id = true ∨ c.remains s.now p m.id = true
  tierings : s.broken = false → s.fills = true →
    (∀ hf ∈ s.tierings, s.fits hf = true) ∨ ∃ c ∈ s.calls, c.changed = true ∧ .clear ∈ c.prog
  own      : s.broken = false → s.fills = true → ∀ m ∈ s.mail, ∀ p ∈ Part.own.of s.now, found p m = true →
    s.placed p m.id ∨ ∃ c ∈ s.calls, c.lists = true ∧ c.remains s.now p m.id = true

theorem fits_iff {hf : Option Nat} :
    s.fits hf = true ↔ hf = none ∨ hf = (s.db.bodyWindow.getD .month).headersFrom := by
  rw [fits, decide_eq_true_eq]

theorem fits_congr (body : u.db.bodyWindow = s.db.bodyWindow) (hf : Option Nat) : u.fits hf = s.fits hf := by
  rw [fits, fits, body]

theorem queuePriority_le {hf : Option Nat} {p : Phase} (h : s.fits hf = true) : queuePriority p hf ≤ s.tiered p := by
  rcases fits_iff.mp h with rfl | rfl
  · exact le_queuePriority
  · exact le_rfl

theorem queuePriority_fits {hf : Option Nat} {p : Phase} (h : s.fits hf = true) (less : p.priority < WINDOW_PRIORITY) :
    queuePriority p hf = p.priority := by
  rcases fits_iff.mp h with rfl | rfl
  · rfl
  · exact queuePriority_fixed less

theorem Whole.kept (h : s.Whole found) : s.Kept found := by
  intro syncing quiet m hm p hp hf
  obtain ⟨unbroken, boot⟩ := h.sync syncing
  have fills : s.fills = true := by simp [State.fills, boot]
  have idle : ∀ c ∈ s.calls, ∀ i ∈ c.prog, i.relists = false := by
    intro c hc i hi
    have := List.all_eq_true.mp (List.all_eq_true.mp quiet c hc) i hi
    simp only [List.mem_cons, List.not_mem_nil, or_false, decide_eq_true_eq] at this
    rcases this with rfl | rfl | rfl | rfl <;> rfl
  have keeps : s.db.keeps (s.tiered p) m.id = true := by
    by_cases less : p.priority < WINDOW_PRIORITY
    case pos => exact Db.keeps_mono (h.fixed boot m hm p hp less hf) le_queuePriority
    case neg =>
      have fit : ∀ hf ∈ s.tierings, s.fits hf = true := by
        rcases h.tierings unbroken fills with fit | ⟨c, hc, _, clear⟩
        · exact fit
        · exact nomatch (idle c hc _ clear)
      rcases h.own unbroken fills m hm p (mem_own hp less) hf with ⟨hf, mem, keeps⟩ | ⟨c, hc, lists, remains⟩
      · exact Db.keeps_mono keeps (queuePriority_le (fit hf mem))
      · have owes := Call.owes_of_remains ((h.calls c hc).lists lists) remains
        rw [Call.owes, Bool.and_eq_true, List.any_eq_true] at owes
        obtain ⟨_, i, hi, relists⟩ := owes
        exact nomatch (idle c hc i hi).symm.trans relists
  refine ⟨keeps, fun empty => ?_⟩
  rcases Db.keeps_iff.mp keeps with stored | ⟨q, hq, _⟩
  · exact stored
  · exact nomatch empty ▸ (Table.mem_rows.mpr hq : q ∈ s.db.queue.rows)

theorem fills_iff : s.fills = true ↔ s.db.bootstrapped = true ∨ ∃ c ∈ s.calls, .setBootstrapped true ∈ c.prog := by
  simp [fills, Table.mem_rows]

-- What a step of a call leaves as it was besides the queue and what is stored.
structure Frame (s u : State) : Prop where
  calls  : u.calls = s.calls
  mail   : u.mail = s.mail
  broken : u.broken = s.broken
  boot   : u.db.bootstrapped = s.db.bootstrapped
  body   : u.db.bodyWindow = s.db.bodyWindow

theorem Frame.refl : Frame s s :=
  ⟨rfl, rfl, rfl, rfl, rfl⟩

-- A call goes on, and the queue keeps what it had.
theorem Whole.goes (h : s.Whole found) (hc : c ∈ s.calls) (id : c'.id = c.id) (frame : Frame s u)
    (window : s.fills = true → u.now = s.now)
    (syncing : u.syncing = true → s.syncing = true ∨ s.broken = false ∧ s.db.bootstrapped = true)
    (keeps : ∀ m ∈ s.mail, ∀ n, s.db.keeps n m.id = true → u.db.keeps n m.id = true)
    (tierings : ∀ hf ∈ s.tierings, hf ∈ u.tierings)
    (fits : s.fills = true → ∀ hf ∈ u.tierings, hf ∈ s.tierings ∨ s.fits hf = true) (sound : c'.Sound)
    (fills : .setBootstrapped true ∈ c'.prog → .setBootstrapped true ∈ c.prog)
    (clears : c.changed = true → .clear ∈ c.prog →
      c'.changed = true ∧ .clear ∈ c'.prog ∨ (s.broken = false → s.fills = true → ∀ hf ∈ s.tierings, s.fits hf = true))
    (lists : c'.lists = c.lists)
    (remains : c.lists = true ∨ .setBootstrapped true ∈ c.prog → ∀ m ∈ s.mail, ∀ p, found p m = true →
      c.remains s.now p m.id = true →
      c'.remains s.now p m.id = true ∨ c.headersFrom ∈ u.tierings ∧ (s.fills = true → s.fits c.headersFrom = true) ∧
        u.db.keeps (queuePriority p c.headersFrom) m.id = true) : (u.put c').Whole found := by
  obtain ⟨calls, mail, broken, boot, body⟩ := frame
  have was (hs : (u.put c').fills = true) : s.fills = true := by
    rcases fills_iff.mp hs with on | ⟨d, hd, sets⟩
    · exact fills_iff.mpr (.inl (boot ▸ on))
    · refine fills_iff.mpr (.inr ?_)
      rcases mem_put hd with old | rfl
      · exact ⟨d, calls ▸ old, sets⟩
      · exact ⟨c, hc, fills sets⟩
  have same (fills : s.fills = true) : (u.put c').now = s.now := window fills
  have new : c' ∈ (u.put c').calls := mem_put_self
  have other (d : Call) (hd : d ∈ s.calls) : d = c ∨ d ∈ (u.put c').calls := by
    by_cases eq : d.id = c.id
    · exact .inl (s.calls.eq_of_key_eq hd hc eq)
    · exact .inr (mem_put_of_ne (calls ▸ hd) (id ▸ eq))
  refine ⟨?_, ?_, ?_, ?_, ?_, ?_⟩
  · intro d hd
    rcases mem_put hd with old | rfl
    · exact h.calls d (calls ▸ old)
    · exact sound
  · intro on
    rcases syncing on with on | ⟨unbroken, on⟩
    · exact ⟨broken.trans (h.sync on).left, boot.trans (h.sync on).right⟩
    · exact ⟨broken.trans unbroken, boot.trans on⟩
  · intro on m hm p hp less hf
    have on : s.db.bootstrapped = true := boot.symm.trans on
    rw [same (fills_iff.mpr (.inl on))] at hp
    exact keeps m (mail ▸ hm) _ (h.fixed on m (mail ▸ hm) p hp less hf)
  · intro d hd sets m hm' p hp less hf
    have hm : m ∈ s.mail := mail ▸ hm'
    rcases mem_put hd with old | rfl
    · have old : d ∈ s.calls := calls ▸ old
      rw [same (fills_iff.mpr (.inr ⟨d, old, sets⟩))] at hp ⊢
      exact (h.rest d old sets m hm p hp less hf).imp_left (keeps m hm _)
    · have on : s.fills = true := fills_iff.mpr (.inr ⟨c, hc, fills sets⟩)
      rw [same on] at hp ⊢
      rcases h.rest c hc (fills sets) m hm p hp less hf with kept | left
      · exact .inl (keeps m hm _ kept)
      · rcases remains (.inr (fills sets)) m hm p hf left with left | ⟨_, fit, kept⟩
        · exact .inr left
        · exact .inl (queuePriority_fits (fit on) less ▸ kept)
  · intro unbroken on
    have unbroken : s.broken = false := broken.symm.trans unbroken
    have fit (all : ∀ hf ∈ s.tierings, s.fits hf = true) : ∀ hf ∈ (u.put c').tierings, (u.put c').fits hf = true := by
      intro hf mem
      have : s.fits hf = true := (fits (was on) hf mem).elim (all hf) fun fit => fit
      exact (fits_congr body hf : (u.put c').fits hf = _).trans this
    rcases h.tierings unbroken (was on) with all | ⟨d, hd, changed, clear⟩
    · exact .inl (fit all)
    · rcases other d hd with rfl | mem
      · rcases clears changed clear with goes | all
        · exact .inr ⟨c', new, goes⟩
        · exact .inl (fit (all unbroken (was on)))
      · exact .inr ⟨d, mem, changed, clear⟩
  · intro unbroken on m hm p hp hf
    have hm : m ∈ s.mail := mail ▸ hm
    rw [same (was on)] at hp ⊢
    rcases h.own (broken.symm.trans unbroken) (was on) m hm p hp hf with ⟨tier, mem, kept⟩ | ⟨d, hd, dlists, left⟩
    · exact .inl ⟨tier, tierings tier mem, keeps m hm _ kept⟩
    · rcases other d hd with rfl | mem
      · rcases remains (.inl dlists) m hm p hf left with left' | ⟨mem, _, kept⟩
        · exact .inr ⟨c', new, lists.trans dlists, left'⟩
        · exact .inl ⟨_, mem, kept⟩
      · exact .inr ⟨d, mem, dlists, left⟩

theorem mem_phasesFor_fixed {window window' : SyncWindow} {p : Phase} (less : p.priority < WINDOW_PRIORITY)
    (h : p ∈ phasesFor window) : p ∈ phasesFor window' :=
  (Part.mem_fixed less (h : p ∈ Part.all.of window) : p ∈ Part.all.of window')

-- A call goes on behind an instruction that lists nothing.
theorem Whole.tail {i : Instr} {prog : List Instr} (h : s.Whole found) (hc : c ∈ s.calls) (e : c.prog = i :: prog)
    (none_ : i.relists = false) (on : c.GoesOn c' prog) (frame : Frame s u) (window : s.fills = true → u.now = s.now)
    (syncing : u.syncing = true → s.syncing = true ∨ s.broken = false ∧ s.db.bootstrapped = true)
    (keeps : ∀ m ∈ s.mail, ∀ n, s.db.keeps n m.id = true → u.db.keeps n m.id = true)
    (tierings : u.tierings = s.tierings) : (u.put c').Whole found := by
  refine h.goes hc on.id frame window syncing keeps (fun _ mem => tierings ▸ mem)
    (fun _ _ mem => .inl (tierings ▸ mem)) ((h.calls c hc).tail e on.prog on.lists on.changed) ?_ ?_ on.lists ?_
  · exact fun mem => e ▸ List.mem_cons_of_mem i (on.prog ▸ mem)
  · intro changed mem
    rw [e] at mem
    rcases List.mem_cons.mp mem with rfl | mem
    · cases none_
    · exact .inl ⟨on.changed.trans changed, on.prog ▸ mem⟩
  · exact fun _ m _ p _ left => .inl (Call.remains_tail e none_ on left)

-- A call goes on, and nothing else changes.
theorem Whole.turns (h : s.Whole found) (hc : c ∈ s.calls) (id : c'.id = c.id) (sound : c'.Sound)
    (fills : .setBootstrapped true ∈ c'.prog → .setBootstrapped true ∈ c.prog)
    (clears : c.changed = true → .clear ∈ c.prog →
      c'.changed = true ∧ .clear ∈ c'.prog ∨ (s.broken = false → s.fills = true → ∀ hf ∈ s.tierings, s.fits hf = true))
    (lists : c'.lists = c.lists)
    (remains : c.lists = true ∨ .setBootstrapped true ∈ c.prog → ∀ m ∈ s.mail, ∀ p, found p m = true →
      c.remains s.now p m.id = true → c'.remains s.now p m.id = true) : (s.put c').Whole found :=
  h.goes hc id .refl (fun _ => rfl) .inl (fun _ _ _ kept => kept) (fun _ mem => mem) (fun _ _ mem => .inl mem) sound fills
    clears lists fun on m hm p hf left => .inl (remains on m hm p hf left)

theorem Whole.skip {i : Instr} {prog : List Instr} (h : s.Whole found) (hc : c ∈ s.calls) (e : c.prog = i :: prog)
    (none_ : i.relists = false) (on : c.GoesOn c' prog) : (s.put c').Whole found :=
  h.tail hc e none_ on .refl (fun _ => rfl) .inl (fun _ _ _ kept => kept) rfl

-- A call ends that has nothing to list.
theorem Whole.finish (h : s.Whole found) (hc : c ∈ s.calls)
    (none_ : c.lists = false ∨ ∀ now p id, c.remains now p id = false) (rests : .setBootstrapped true ∉ c.prog)
    (clears : c.changed = true → .clear ∉ c.prog) (on : c.GoesOn c' []) (frame : Frame s u) (window : u.now = s.now)
    (syncing : u.syncing = s.syncing) (tierings : u.tierings = s.tierings)
    (keeps : ∀ m ∈ s.mail, ∀ n, s.db.keeps n m.id = true → u.db.keeps n m.id = true) : (u.put c').Whole found := by
  refine h.goes hc on.id frame (fun _ => window) (fun on => .inl (syncing ▸ on)) keeps (fun _ mem => tierings ▸ mem)
    (fun _ _ mem => .inl (tierings ▸ mem)) ?_ ?_ ?_ on.lists ?_
  · exact ⟨on.prog ▸ rfl, by rw [on.lists, on.changed]; exact (h.calls c hc).lists,
      fun mem => by simp [on.prog] at mem, fun b mem => by simp [on.prog] at mem⟩
  · exact fun mem => by simp [on.prog] at mem
  · exact fun on mem => absurd mem (clears on)
  · intro on m _ p _ left
    rcases none_ with off | none_
    · exact on.elim (fun on => nomatch off.symm.trans on) fun sets => absurd sets rests
    · exact nomatch (none_ s.now p m.id).symm.trans left

-- A call writes another window, which it is to list.
theorem Whole.rewindow (h : s.Whole found) (prog : c'.prog = relistWindow) (changed : c'.changed = true)
    (lists : c'.lists = true) (calls : u.calls = s.calls) (mail : u.mail = s.mail)
    (broken : u.broken = s.broken) (syncing : u.syncing = s.syncing) (boot : u.db.bootstrapped = s.db.bootstrapped)
    (keeps : ∀ n id, u.db.keeps n id = s.db.keeps n id) : (u.put c').Whole found := by
  have new : c' ∈ (u.put c').calls := mem_put_self
  refine ⟨?_, ?_, ?_, ?_, ?_, ?_⟩
  · intro d hd
    rcases mem_put hd with old | rfl
    · exact h.calls d (calls ▸ old)
    · exact ⟨prog ▸ rfl, fun _ => changed, fun mem => by simp [prog, relistWindow] at mem,
        fun b mem => by simp [prog, relistWindow] at mem⟩
  · intro on
    exact ⟨broken.trans (h.sync (syncing.symm.trans on)).left, boot.trans (h.sync (syncing.symm.trans on)).right⟩
  · intro on m hm p hp less hf
    exact (keeps _ _).trans (h.fixed (boot.symm.trans on) m (mail ▸ hm) p (mem_phasesFor_fixed less hp) less hf)
  · intro d hd sets m hm' p hp less hf
    rcases mem_put hd with old | rfl
    · exact (h.rest d (calls ▸ old) sets m (mail ▸ hm') p (mem_phasesFor_fixed less hp) less hf).imp
        (keeps _ _).trans (Call.remains_fixed less)
    · simp [prog, relistWindow] at sets
  · exact fun _ _ => .inr ⟨c', new, changed, by simp [prog, relistWindow]⟩
  · intro _ _ m _ p hp _
    exact .inr ⟨c', new, lists, by simpa [Call.remains, prog, relistWindow, listsPhase] using hp⟩

theorem Whole.setBodyWindow (h : s.Whole found) (hc : c ∈ s.calls) {body : BodyWindow}
    (e : c.prog = .setBodyWindow body :: ensureTiers) (id : c'.id = c.id) (prog : c'.prog = ensureTiers)
    (changed : c'.changed = true) (lists : c'.lists = c.lists) (calls : u.calls = s.calls) (mail : u.mail = s.mail)
    (broken : u.broken = s.broken) (syncing : u.syncing = s.syncing) (boot : u.db.bootstrapped = s.db.bootstrapped)
    (window : u.now = s.now) (tierings : u.tierings = s.tierings)
    (keeps : ∀ n id, u.db.keeps n id = s.db.keeps n id) : (u.put c').Whole found := by
  have new : c' ∈ (u.put c').calls := mem_put_self
  have off : c.lists = false := (h.calls c hc).before (by simp [e, ensureTiers])
  have was (hs : (u.put c').fills = true) : s.fills = true := by
    rcases fills_iff.mp hs with on | ⟨d, hd, sets⟩
    · exact fills_iff.mpr (.inl (boot ▸ on))
    · rcases mem_put hd with old | rfl
      · exact fills_iff.mpr (.inr ⟨d, calls ▸ old, sets⟩)
      · simp [prog, ensureTiers, relistWindow] at sets
  refine ⟨?_, ?_, ?_, ?_, ?_, ?_⟩
  · intro d hd
    rcases mem_put hd with old | rfl
    · exact h.calls d (calls ▸ old)
    · exact ⟨prog ▸ rfl, fun _ => changed, fun _ => lists.trans off,
        fun b mem => by simp [prog, ensureTiers, relistWindow] at mem⟩
  · intro on
    exact ⟨broken.trans (h.sync (syncing.symm.trans on)).left, boot.trans (h.sync (syncing.symm.trans on)).right⟩
  · intro on m hm p hp less hf
    exact (keeps _ _).trans (h.fixed (boot.symm.trans on) m (mail ▸ hm) p (window ▸ hp) less hf)
  · intro d hd sets m hm' p hp less hf
    rcases mem_put hd with old | rfl
    · exact (h.rest d (calls ▸ old) sets m (mail ▸ hm') p (window ▸ hp) less hf).imp (keeps _ _).trans
        (Call.remains_fixed less)
    · simp [prog, ensureTiers, relistWindow] at sets
  · exact fun _ _ => .inr ⟨c', new, changed, by simp [prog, ensureTiers, relistWindow]⟩
  · intro unbroken on m hm p hp hf
    have same : (u.put c').now = s.now := window
    rw [same] at hp ⊢
    rcases h.own (broken.symm.trans unbroken) (was on) m (mail ▸ hm) p hp hf with ⟨tier, mem, kept⟩ | ⟨d, hd, on, left⟩
    · exact .inl ⟨tier, tierings ▸ mem, (keeps _ _).trans kept⟩
    · refine .inr ⟨d, mem_put_of_ne (calls ▸ hd) fun eq => ?_, on, left⟩
      cases s.calls.eq_of_key_eq hd hc (eq.trans id)
      exact nomatch off.symm.trans on

theorem Whole.setBootstrapped (h : s.Whole found) (hc : c ∈ s.calls) (e : c.prog = [.setBootstrapped true])
    (id : c'.id = c.id) (prog : c'.prog = []) (lists : c'.lists = c.lists) (changed : c'.changed = c.changed)
    (unbroken : s.broken = false) (calls : u.calls = s.calls) (mail : u.mail = s.mail) (broken : u.broken = s.broken)
    (boot : u.db.bootstrapped = true) (window : u.now = s.now) (body : u.db.bodyWindow = s.db.bodyWindow)
    (tierings : u.tierings = s.tierings) (keeps : ∀ n id, u.db.keeps n id = s.db.keeps n id) :
    (u.put c').Whole found := by
  have sets : .setBootstrapped true ∈ c.prog := by simp [e]
  have fills : s.fills = true := fills_iff.mpr (.inr ⟨c, hc, sets⟩)
  have none_ (now : SyncWindow) (p : Phase) (id : String) : c.remains now p id = false := by
    simp [Call.remains, e, listsPhase]
  have other (d : Call) (hd : d ∈ s.calls) (ne : d ≠ c) : d ∈ (u.put c').calls :=
    mem_put_of_ne (calls ▸ hd) fun eq => ne (s.calls.eq_of_key_eq hd hc (eq.trans id))
  refine ⟨?_, ?_, ?_, ?_, ?_, ?_⟩
  · intro d hd
    rcases mem_put hd with old | rfl
    · exact h.calls d (calls ▸ old)
    · exact (h.calls c hc).tail e prog lists changed
  · exact fun _ => ⟨broken.trans unbroken, boot⟩
  · intro _ m hm p hp less hf
    rcases h.rest c hc sets m (mail ▸ hm) p (window ▸ hp) less hf with kept | left
    · exact (keeps _ _).trans kept
    · exact nomatch (none_ _ _ _).symm.trans left
  · intro d hd sets m hm' p hp less hf
    rcases mem_put hd with old | rfl
    · exact (h.rest d (calls ▸ old) sets m (mail ▸ hm') p (window ▸ hp) less hf).imp (keeps _ _).trans
        (Call.remains_fixed less)
    · simp [prog] at sets
  · intro _ _
    rcases h.tierings unbroken fills with all | ⟨d, hd, changed, clear⟩
    · exact .inl fun hf mem => (fits_congr body hf : (u.put c').fits hf = _).trans (all hf (tierings ▸ mem))
    · refine .inr ⟨d, other d hd ?_, changed, clear⟩
      rintro rfl
      simp [e] at clear
  · intro _ _ m hm p hp hf
    have same : (u.put c').now = s.now := window
    rw [same] at hp ⊢
    rcases h.own unbroken fills m (mail ▸ hm) p hp hf with ⟨tier, mem, kept⟩ | ⟨d, hd, on, left⟩
    · exact .inl ⟨tier, tierings ▸ mem, (keeps _ _).trans kept⟩
    · refine .inr ⟨d, other d hd ?_, on, left⟩
      rintro rfl
      exact nomatch (none_ _ _ _).symm.trans left

-- A listing of the window's own phases starts by clearing them.
theorem Whole.clear (h : s.Whole found) (hc : c ∈ s.calls) {prog : List Instr} (e : c.prog = .clear :: prog)
    (id : c'.id = c.id) (prog' : c'.prog = prog) (changed : c'.changed = true) (lists : c'.lists = true)
    (fresh : .compare ∉ prog ∧ (∀ b, .widen b ∉ prog) ∧ .setBootstrapped true ∉ prog)
    (own : ∀ now p w, p ∈ Part.own.of now → listsPhase now p w prog = true) (calls : u.calls = s.calls)
    (mail : u.mail = s.mail) (broken : u.broken = false) (syncing : u.syncing = s.syncing)
    (boot : u.db.bootstrapped = s.db.bootstrapped) (window : u.now = s.now) (tierings : u.tierings = [])
    (keeps : ∀ n id, n < WINDOW_PRIORITY → s.db.keeps n id = true → u.db.keeps n id = true) :
    (u.put c').Whole found := by
  have new : c' ∈ (u.put c').calls := mem_put_self
  refine ⟨?_, ?_, ?_, ?_, ?_, ?_⟩
  · intro d hd
    rcases mem_put hd with old | rfl
    · exact h.calls d (calls ▸ old)
    · exact ⟨prog' ▸ shaped_tail (e ▸ (h.calls c hc).shaped), fun _ => changed, fun mem => absurd (prog' ▸ mem) fresh.left,
        fun b mem => absurd (prog' ▸ mem) (fresh.right.left b)⟩
  · exact fun on => ⟨broken, boot.trans (h.sync (syncing.symm.trans on)).right⟩
  · intro on m hm p hp less hf
    exact keeps _ _ less (h.fixed (boot.symm.trans on) m (mail ▸ hm) p (window ▸ hp) less hf)
  · intro d hd sets m hm' p hp less hf
    rcases mem_put hd with old | rfl
    · exact (h.rest d (calls ▸ old) sets m (mail ▸ hm') p (window ▸ hp) less hf).imp (keeps _ _ less)
        (Call.remains_fixed less)
    · exact absurd (prog' ▸ sets) fresh.right.right
  · exact fun _ _ => .inl fun hf mem => by simp [put, tierings] at mem
  · intro _ _ m _ p hp _
    refine .inr ⟨c', new, lists, ?_⟩
    rw [Call.remains, prog', own _ _ _ hp, Bool.true_or]

-- A window that has not been listed, and is not being listed, is only cleared.
theorem Whole.unfilled (h : s.Whole found) (off : s.fills = false) (sound : c'.Sound)
    (rests : .setBootstrapped true ∉ c'.prog) (calls : u.calls = s.calls) (broken : u.broken = s.broken)
    (syncing : u.syncing = s.syncing) (boot : u.db.bootstrapped = s.db.bootstrapped) : (u.put c').Whole found := by
  have none_ : ¬(u.put c').fills = true := by
    intro on
    refine absurd (fills_iff.mpr ?_) (Bool.eq_false_iff.mp off)
    rcases fills_iff.mp on with on | ⟨d, hd, sets⟩
    · exact .inl (boot.symm.trans on)
    · rcases mem_put hd with old | rfl
      · exact .inr ⟨d, calls ▸ old, sets⟩
      · exact absurd sets rests
  refine ⟨?_, ?_, fun on => ?_, fun d hd sets => ?_, fun _ on => absurd on none_, fun _ on => absurd on none_⟩
  · intro d hd
    rcases mem_put hd with old | rfl
    · exact h.calls d (calls ▸ old)
    · exact sound
  · intro on
    exact ⟨broken.trans (h.sync (syncing.symm.trans on)).left, boot.trans (h.sync (syncing.symm.trans on)).right⟩
  · exact absurd (fills_iff.mpr (.inl on)) none_
  · exact absurd (fills_iff.mpr (.inr ⟨d, hd, sets⟩)) none_

-- Calls that end owe nothing, or a listing was broken off.
theorem Whole.ends (h : s.Whole found) (db : t.db = s.db) (mail : t.mail = s.mail) (tierings : t.tierings = s.tierings)
    (calls : ∀ d ∈ t.calls, d ∈ s.calls) (sync : t.syncing = true → s.syncing = true ∧ t.broken = false)
    (gone : t.broken = false → s.broken = false ∧ ∀ d ∈ s.calls, d ∉ t.calls → d.owes = false) : t.Whole found := by
  have now : t.now = s.now := by rw [State.now, db]
  have was (hs : t.fills = true) : s.fills = true := by
    rcases fills_iff.mp hs with on | ⟨d, hd, sets⟩
    · exact fills_iff.mpr (.inl (db ▸ on))
    · exact fills_iff.mpr (.inr ⟨d, calls d hd, sets⟩)
  refine ⟨fun d hd => h.calls d (calls d hd), fun on => ⟨(sync on).right, db ▸ (h.sync (sync on).left).right⟩,
    ?_, ?_, ?_, ?_⟩
  · exact fun on m hm p hp => db ▸ h.fixed (db ▸ on) m (mail ▸ hm) p (now ▸ hp)
  · exact fun d hd sets m hm p hp less hf => db ▸ now ▸ h.rest d (calls d hd) sets m (mail ▸ hm) p (now ▸ hp) less hf
  · intro unbroken on
    obtain ⟨unbroken, none_⟩ := gone unbroken
    rcases h.tierings unbroken (was on) with all | ⟨d, hd, changed, clear⟩
    · refine .inl fun hf mem => ?_
      rw [fits, db]
      exact all hf (tierings ▸ mem)
    · by_cases mem : d ∈ t.calls
      case pos => exact .inr ⟨d, mem, changed, clear⟩
      case neg =>
        have owes : d.owes = true := by
          rw [Call.owes, changed, Bool.true_and]
          exact List.any_eq_true.mpr ⟨.clear, clear, rfl⟩
        exact nomatch (none_ d hd mem).symm.trans owes
  · intro unbroken on m hm p hp hf
    obtain ⟨unbroken, none_⟩ := gone unbroken
    rw [now] at hp ⊢
    rcases h.own unbroken (was on) m (mail ▸ hm) p hp hf with ⟨tier, mem, kept⟩ | ⟨d, hd, lists, left⟩
    · exact .inl ⟨tier, tierings ▸ mem, by rw [db]; exact kept⟩
    · by_cases mem : d ∈ t.calls
      case pos => exact .inr ⟨d, mem, lists, left⟩
      case neg => exact nomatch (none_ d hd mem).symm.trans (Call.owes_of_remains ((h.calls d hd).lists lists) left)

-- A call begins that has listed nothing.
theorem Whole.start (h : s.Whole found) {mk : Nat → Call} {hmk : ∀ n, (mk n).id = n} (sound : ∀ n, (mk n).Sound)
    (sets : ∀ n, .setBootstrapped true ∉ (mk n).prog) : (s.start mk hmk).Whole found := by
  have was (hs : (s.start mk hmk).fills = true) : s.fills = true := by
    rcases fills_iff.mp hs with on | ⟨d, hd, on⟩
    · exact fills_iff.mpr (.inl on)
    · simp only [State.start, Table.mem_insertRow] at hd
      rcases hd with old | rfl
      · exact fills_iff.mpr (.inr ⟨d, old, on⟩)
      · exact absurd on (sets _)
  have old (d : Call) (hd : d ∈ s.calls) : d ∈ (s.start mk hmk).calls := by
    simp only [State.start, Table.mem_insertRow]
    exact .inl hd
  refine ⟨?_, h.sync, h.fixed, ?_, ?_, ?_⟩
  · intro d hd
    simp only [State.start, Table.mem_insertRow] at hd
    rcases hd with old | rfl
    · exact h.calls d old
    · exact sound _
  · intro d hd on
    simp only [State.start, Table.mem_insertRow] at hd
    rcases hd with old | rfl
    · exact h.rest d old on
    · exact absurd on (sets _)
  · intro unbroken on
    exact (h.tierings unbroken (was on)).imp_right fun ⟨d, hd, rest⟩ => ⟨d, old d hd, rest⟩
  · intro unbroken on m hm p hp hf
    exact (h.own unbroken (was on) m hm p hp hf).imp_right fun ⟨d, hd, rest⟩ => ⟨d, old d hd, rest⟩

end State

end Kaluta.Download
