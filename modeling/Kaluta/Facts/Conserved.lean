import Kaluta.Facts.Apart

-- What moving a fact, and undoing and redoing that, keeps of it.
namespace Kaluta.Facts

-- A row of one of the stores.
structure Row where
  scope : Scope
  fact  : FactRow
  deriving DecidableEq

def Row.place (r : Row) : Place :=
  (r.scope, r.fact.id)

-- The rows that a change moved a fact from and to.
def Change.move (c : Change) : Option (Row × Row) :=
  match c.before.facts, c.before.globalFacts, c.after.facts, c.after.globalFacts with
  | [x], [], [], [y] => some (⟨.account, x.1⟩, ⟨.global, y.1⟩)
  | [], [x], [y], [] => some (⟨.global, x.1⟩, ⟨.account, y.1⟩)
  | _, _, _, _       => none

-- A fact of which one write is done and the other is to come: the place it leaves, the one where it is kept.
structure Moving where
  left    : Place
  kept    : Place
  content : String × String

namespace Call

def moving : Call → Option Moving
  | recording target f _ moved _ _ => some ⟨(target.other, f.id), (target, moved.1.id), f.content⟩
  | removing f moved               => some ⟨(.global, f.id), (.account, moved.id), f.content⟩
  | finishing _ c true             => c.move.map fun m => ⟨m.2.place, m.1.place, m.1.fact.content⟩
  | finishing _ c false            => c.move.map fun m => ⟨m.1.place, m.2.place, m.2.fact.content⟩
  | _                              => none

-- The rows of the fact as a call read it, when it has written nothing yet.
def reads : Call → Option (List Place × String × String)
  | copying target f _ _ => some ([(target.other, f.id)], f.content)
  | replaying _ c _      => c.move.map fun m => ([m.1.place, m.2.place], m.1.fact.content)
  | _                    => none

-- The rows that a call's next write is about.
def writes : Call → List Place
  | applying scope edits _ _                          => (edits.filterMap FactEdit.rewrites).map (scope, ·)
  | copying target f _ _ | recording target f _ _ _ _ => [(target.other, f.id)]
  | removing f _                                      => [(.global, f.id)]
  | replaying scope c _ | finishing scope c _         =>
    match c.move with
    | some m => [m.1.place, m.2.place]
    | none   => ((c.before.facts ++ c.after.facts).map (·.1.id)).map (scope, ·)

-- An edit, or the undo or redo of one.
def isEdit : Call → Bool
  | applying _ _ _ _                  => true
  | replaying _ c _ | finishing _ c _ => c.move.isNone
  | _                                 => false

-- Whether the next write is the last.
def isLast : Call → Bool
  | recording .account _ _ _ _ _                     => false
  | recording .global _ _ _ _ _ | removing _ _ | finishing _ _ _ => true
  | _                                                => false

end Call

namespace State

def rows (s : State) : List Row :=
  s.account.facts.rows.map (⟨.account, ·⟩) ++ s.global.facts.rows.map (⟨.global, ·⟩)

-- A fact is in one of the stores, with this label and value.
def Holds (s : State) (fact : Place) (content : String × String) : Prop :=
  ∃ r ∈ s.rows, s.origin r.place = fact ∧ r.fact.content = content

def HoldsIn (s : State) (fact : Place) (scope : Scope) : Prop :=
  ∃ r ∈ s.rows, s.origin r.place = fact ∧ r.scope = scope

def About (s : State) (call : Call) (fact : Place) : Prop :=
  ∃ p ∈ call.writes, s.origin p = fact

-- A fact is edited, or an edit of it is undone or redone.
def Edits (s : State) (a : Action) (fact : Place) : Prop :=
  match a with
  | .go i _ => ∃ call ∈ s.calls[i]?, call.isEdit = true ∧ s.About call fact
  | _       => False

-- A move of a fact, its undo or its redo succeeds.
def Completes (s : State) (a : Action) (fact : Place) : Prop :=
  match a with
  | .go i _ => ∃ call ∈ s.calls[i]?, call.isLast = true ∧ ∃ m ∈ call.moving, s.origin m.kept = fact
  | _       => False

-- A move or its replay begins to write when the rows of the fact are as it read them, with no other copy; and nothing
-- else writes rows of the fact before its second write.
def Undisturbed (s : State) (a : Action) : Prop :=
  match a with
  | .go i _ => ∀ call ∈ s.calls[i]?,
    (∀ other ∈ s.calls.eraseIdx i, ∀ m ∈ other.moving, ¬s.About call (s.origin m.kept)) ∧
    ∀ as_read ∈ call.reads, ∀ r ∈ s.rows, (∃ p ∈ as_read.1, s.origin p = s.origin r.place) →
      r.place ∈ as_read.1 ∧ r.fact.content = as_read.2
  | _       => True

instance (s : State) (call : Call) (fact : Place) : Decidable (s.About call fact) :=
  inferInstanceAs (Decidable (∃ p ∈ call.writes, s.origin p = fact))

instance (s : State) (fact : Place) (content : String × String) : Decidable (s.Holds fact content) :=
  inferInstanceAs (Decidable (∃ r ∈ s.rows, s.origin r.place = fact ∧ r.fact.content = content))

instance (s : State) : DecidablePred s.Undisturbed
  | .go i _                          =>
    inferInstanceAs (Decidable (∀ call ∈ s.calls[i]?,
      (∀ other ∈ s.calls.eraseIdx i, ∀ m ∈ other.moving, ¬s.About call (s.origin m.kept)) ∧
      ∀ as_read ∈ call.reads, ∀ r ∈ s.rows, (∃ p ∈ as_read.1, s.origin p = s.origin r.place) →
        r.place ∈ as_read.1 ∧ r.fact.content = as_read.2))
  | .apply _ _ _ _ | .move _ _ | .replay _ _ _ | .stop _ | .crash => inferInstanceAs (Decidable True)

variable {s t : State} {m : Moving} {p : Place}

def content (s : State) (p : Place) : Option (String × String) :=
  (s.store p.1).content p.2

theorem mem_rows {r : Row} : r ∈ s.rows ↔ r.fact ∈ (s.store r.scope).facts := by
  obtain ⟨scope, f⟩ := r
  simp only [rows, List.mem_append, List.mem_map, Row.mk.injEq]
  cases scope
  case account =>
    constructor
    · rintro (⟨_, hf, _, rfl⟩ | ⟨_, _, h, _⟩)
      · exact hf
      · cases h
    · exact fun hf => .inl ⟨f, hf, rfl, rfl⟩
  case global =>
    constructor
    · rintro (⟨_, _, h, _⟩ | ⟨_, hf, _, rfl⟩)
      · cases h
      · exact hf
    · exact fun hf => .inr ⟨f, hf, rfl, rfl⟩

theorem content_of_row {r : Row} (h : r ∈ s.rows) : s.content r.place = some r.fact.content :=
  Db.content_of_mem (mem_rows.mp h)

theorem row_of_content (h : s.content p = some lv) : ∃ r ∈ s.rows, r.place = p ∧ r.fact.content = lv := by
  obtain ⟨f, hf, id, content⟩ := Db.content_eq_some.mp h
  exact ⟨⟨p.1, f⟩, mem_rows.mpr hf, Prod.ext rfl id, content⟩

-- A place that a row was at.
def Known (s : State) (p : Place) : Prop :=
  p.2 ≠ 0 ∧ p.2 ≤ (s.store p.1).lastId

structure Twins (s : State) (x y : Row) : Prop where
  left    : s.Known x.place
  right   : s.Known y.place
  same    : s.origin x.place = s.origin y.place
  content : x.fact.content = y.fact.content
  scopes  : x.scope ≠ y.scope

-- A change is an edit in one store, or the move of a fact.
def Fits (s : State) (scope : Scope) (c : Change) : Prop :=
  (c.before.globalFacts = [] ∧ c.after.globalFacts = []) ∨
  scope = .account ∧ ∃ x y, c.move = some (x, y) ∧ s.Twins x y

-- All rows of a fact are the two of its move, and say the same.
structure Midway (s : State) (m : Moving) : Prop where
  left   : s.Known m.left
  right  : s.Known m.kept
  same   : s.origin m.left = s.origin m.kept
  scopes : m.left.1 ≠ m.kept.1
  kept   : s.content m.kept = some m.content
  rows   : ∀ p lv, s.origin p = s.origin m.kept → s.content p = some lv → (p = m.left ∨ p = m.kept) ∧ lv = m.content

def Fine (s : State) : Call → Prop
  | .copying target f _ _                             => s.Known (target.other, f.id)
  | .recording _ f _ moved _ _                        => moved.1.content = f.content
  | .replaying scope c _ | .finishing scope c _       => s.Fits scope c
  | .applying _ _ _ _ | .removing _ _                 => True

structure Sound (s : State) : Prop where
  zero    : ∀ scope, (s.store scope).content 0 = none
  known   : ∀ p, s.Known p → s.Known (s.origin p)
  fresh   : ∀ p, ¬s.Known p → s.origin p = p
  changes : ∀ scope, ∀ c ∈ (s.store scope).changes, s.Fits scope c
  calls   : ∀ call ∈ s.calls, s.Fine call
  moving  : ∀ call ∈ s.calls, ∀ m ∈ call.moving, s.Midway m

-- A step writes some rows, and what rows it adds are new facts, or copies of those.
structure Frame (s t : State) (writes : Place → Prop) : Prop where
  zero    : ∀ scope, (t.store scope).content 0 = none
  known   : ∀ p, s.Known p → t.Known p
  origin  : ∀ p, s.Known p → t.origin p = s.origin p
  content : ∀ p, s.Known p → ¬writes p → t.content p = s.content p
  new     : ∀ p, ¬s.Known p → t.origin p = p ∨ ∃ q, writes q ∧ t.origin p = s.origin q
  origins : ∀ p, t.Known p → t.Known (t.origin p)
  fresh   : ∀ p, ¬t.Known p → t.origin p = p

variable {writes : Place → Prop}

theorem Sound.known_of_content (h : s.Sound) (hp : s.content p = some lv) : s.Known p := by
  refine ⟨fun zero => ?_, Db.le_lastId_of_content hp⟩
  rw [State.content, zero, h.zero] at hp
  cases hp

theorem Midway.frame (h : s.Midway m) (sound : s.Sound) (f : s.Frame t writes)
    (unwritten : ∀ q, writes q → s.origin q ≠ s.origin m.kept) : t.Midway m where
  left   := f.known _ h.left
  right  := f.known _ h.right
  same   := by rw [f.origin _ h.left, f.origin _ h.right, h.same]
  scopes := h.scopes
  kept   := (f.content _ h.right fun w => unwritten _ w rfl).trans h.kept
  rows   := by
    intro p lv same content
    rw [f.origin _ h.right] at same
    by_cases known : s.Known p
    case pos =>
      have same : s.origin p = s.origin m.kept := (f.origin p known).symm.trans same
      exact h.rows p lv same ((f.content p known fun w => unwritten p w same).symm.trans content)
    case neg =>
      rcases f.new p known with eq | ⟨q, w, eq⟩
      · exact absurd ((eq.symm.trans same) ▸ sound.known _ h.right) known
      · exact absurd (eq.symm.trans same) (unwritten q w)

theorem Twins.frame (h : s.Twins x y) (f : s.Frame t writes) : t.Twins x y where
  left    := f.known _ h.left
  right   := f.known _ h.right
  same    := by rw [f.origin _ h.left, f.origin _ h.right, h.same]
  content := h.content
  scopes  := h.scopes

theorem Fits.frame (h : s.Fits scope c) (f : s.Frame t writes) : t.Fits scope c :=
  h.imp_right fun ⟨account, x, y, move, twins⟩ => ⟨account, x, y, move, twins.frame f⟩

theorem Fine.frame {call : Call} (h : s.Fine call) (f : s.Frame t writes) : t.Fine call := by
  cases call
  case copying   => exact f.known _ h
  case replaying => exact Fits.frame h f
  case finishing => exact Fits.frame h f
  case recording => exact h
  case applying  => trivial
  case removing  => trivial

theorem Holds.of_content (h : s.Holds n lv) (sound : s.Sound) (f : s.Frame t writes)
    (content : ∀ p, s.Known p → s.origin p = n → t.content p = s.content p) : t.Holds n lv := by
  obtain ⟨r, hr, rfl, rfl⟩ := h
  have there := content_of_row hr
  have known := sound.known_of_content there
  have ⟨r', hr', place, same⟩ := row_of_content ((content _ known rfl).trans there)
  exact ⟨r', hr', by rw [place, f.origin _ known], same⟩

-- What a step does not write is in the stores as before.
theorem Holds.frame (h : s.Holds n lv) (sound : s.Sound) (f : s.Frame t writes)
    (unwritten : ∀ q, writes q → s.origin q ≠ n) : t.Holds n lv :=
  h.of_content sound f fun p known same => f.content p known fun w => unwritten p w same

-- The second write of a move takes the fact from where it left.
theorem Holds.last (h : s.Holds n lv) (sound : s.Sound) (m : s.Midway mv) (f : s.Frame t (· = mv.left)) : t.Holds n lv := by
  by_cases this : n = s.origin mv.kept
  case pos =>
    obtain ⟨r, hr, same, rfl⟩ := h
    have ⟨_, content⟩ := m.rows _ _ (same.trans this) (content_of_row hr)
    have ne : mv.kept ≠ mv.left := fun eq => m.scopes (congrArg Prod.fst eq).symm
    have ⟨r', hr', place, same'⟩ := row_of_content ((f.content _ m.right ne).trans m.kept)
    exact ⟨r', hr', by rw [place, f.origin _ m.right, this], same'.trans content.symm⟩
  case neg =>
    refine h.frame sound f fun q hq eq => this ?_
    rw [← eq, hq, m.same]

theorem Midway.last (m : s.Midway mv) (sound : s.Sound) (f : s.Frame t (· = mv.left)) (origin : t.origin = s.origin)
    (gone : t.content mv.left = none) : ∃! scope, t.HoldsIn (s.origin mv.kept) scope := by
  have ne : mv.kept ≠ mv.left := fun eq => m.scopes (congrArg Prod.fst eq).symm
  have ⟨r, hr, place, _⟩ := row_of_content ((f.content _ m.right ne).trans m.kept)
  refine ⟨mv.kept.1, ⟨r, hr, by rw [place, origin], congrArg Prod.fst place⟩, ?_⟩
  rintro scope ⟨r', hr', same, rfl⟩
  have content := content_of_row hr'
  rw [origin] at same
  have left : r'.place ≠ mv.left := fun eq => by rw [eq, gone] at content; cases content
  have known : s.Known r'.place := by
    by_contra new
    exact new (sound.fresh _ new ▸ same ▸ sound.known _ m.right)
  have ⟨place', _⟩ := m.rows _ _ same ((f.content _ known left).symm.trans content)
  exact congrArg Prod.fst (place'.resolve_left left)

theorem Sound.frame (h : s.Sound) (f : s.Frame t writes)
    (changes : ∀ scope, ∀ c ∈ (t.store scope).changes, c ∈ (s.store scope).changes ∨ t.Fits scope c)
    (calls : ∀ call ∈ t.calls, call ∈ s.calls ∧ (∀ m ∈ call.moving, ∀ q, writes q → s.origin q ≠ s.origin m.kept) ∨
      t.Fine call ∧ ∀ m ∈ call.moving, t.Midway m) : t.Sound where
  zero    := f.zero
  known   := f.origins
  fresh   := f.fresh
  changes scope c hc := (changes scope c hc).elim (fun old => (h.changes scope c old).frame f) id
  calls call hc := (calls call hc).elim (fun old => Fine.frame (h.calls call old.left) f) And.left
  moving call hc m hm := by
    rcases calls call hc with ⟨old, unwritten⟩ | ⟨_, new⟩
    · exact (h.moving call old m hm).frame h f (unwritten m hm)
    · exact new m hm

end State

end Kaluta.Facts

-- No fact is lost between the stores: each step of a call, then whole runs.
namespace Kaluta.Facts

namespace State

variable {s t : State} {scope : Scope} {db db' : Db} {i : Nat} {now : Millis}

@[simp]
theorem store_setStore (s : State) (scope scope' : Scope) (db : Db) :
    (s.setStore scope db).store scope' = if scope' = scope then db else s.store scope' := by
  cases scope <;> cases scope' <;> rfl

theorem mem_set {calls : List Call} {call other : Call} (h : other ∈ calls.set i call) :
    other ∈ calls.eraseIdx i ∨ other = call := by
  have ⟨j, hj⟩ := List.mem_iff_getElem?.mp h
  rw [List.getElem?_set] at hj
  split at hj
  case isTrue =>
    split at hj
    case isTrue  => exact .inr (Option.some.inj hj).symm
    case isFalse => cases hj
  case isFalse ne => exact .inl (List.mem_eraseIdx_iff_getElem?.mpr ⟨j, Ne.symm ne, hj⟩)

section Frames

variable {p : FactId → Prop}

-- A write to one store.
theorem frame_store (h : s.Sound) (keeps : Db.Keeps (s.store scope) db p)
    (stores : ∀ sc, t.store sc = if sc = scope then db else s.store sc) (origin : t.origin = s.origin) :
    s.Frame t fun q => q.1 = scope ∧ p q.2 := by
  have known (q) (hq : s.Known q) : t.Known q := by
    refine ⟨hq.left, hq.right.trans ?_⟩
    rw [stores]
    split
    case isTrue eq => exact eq ▸ keeps.lastId
    case isFalse   => exact le_rfl
  refine ⟨fun sc => ?_, known, fun q _ => by rw [origin], fun q hq hp => ?_, fun q hq => ?_, fun q hq => ?_, fun q hq => ?_⟩
  · rw [stores]
    split
    case isTrue  => exact keeps.zero (h.zero scope)
    case isFalse => exact h.zero sc
  · rw [content, content, stores]
    split
    case isTrue eq => exact (keeps.content q.2 (eq ▸ hq.right) fun hp' => hp ⟨eq, hp'⟩).trans (by rw [eq])
    case isFalse   => rfl
  · exact .inl (origin ▸ h.fresh q hq)
  · rw [origin]
    by_cases old : s.Known q
    case pos => exact known _ (h.known q old)
    case neg => rwa [h.fresh q old]
  · rw [origin]
    exact h.fresh q fun old => hq (known q old)

theorem frame_same (h : s.Sound) (stores : ∀ sc, t.store sc = s.store sc) (origin : t.origin = s.origin) :
    s.Frame t fun _ => False := by
  have f := frame_store (p := fun _ => False) h (Db.Apart.refl (s.store .account) _).toKeeps
    (fun sc => (stores sc).trans (by split; · rename_i eq; rw [eq]
                                     · rfl)) origin
  exact ⟨f.zero, f.known, f.origin, fun q hq _ => f.content q hq And.right, fun q hq => .inl ((f.new q hq).elim id
    fun ⟨_, w, _⟩ => w.right.elim), f.origins, f.fresh⟩

-- The copy that a move makes.
theorem frame_copy (h : s.Sound) {source copy : Place} (known : s.Known source) (new : ¬s.Known copy) (now : t.Known copy)
    (keeps : Db.Keeps (s.store scope) db fun _ => False) (stores : ∀ sc, t.store sc = if sc = scope then db else s.store sc)
    (origin : t.origin = Function.update s.origin copy (s.origin source)) :
    s.Frame t (· = source) ∧ ∀ q, s.Known q → t.content q = s.content q := by
  have f := frame_store (t := { t with origin := s.origin }) h keeps stores rfl
  have ne {q} (hq : s.Known q) : q ≠ copy := by
    rintro rfl
    exact new hq
  have copied : t.origin copy = s.origin source := by rw [origin, Function.update_self]
  have other {q} (hq : q ≠ copy) : t.origin q = s.origin q := by rw [origin, Function.update_of_ne hq]
  have content (q) (hq : s.Known q) : t.content q = s.content q := f.content q hq And.right
  refine ⟨⟨f.zero, f.known, fun q hq => other (ne hq), fun q hq _ => content q hq, fun q hq => ?_, fun q hq => ?_,
    fun q hq => ?_⟩, content⟩
  · by_cases eq : q = copy
    case pos => exact .inr ⟨source, rfl, eq ▸ copied⟩
    case neg => exact .inl ((other eq).trans (h.fresh q hq))
  · by_cases eq : q = copy
    case pos =>
      rw [eq, copied]
      exact f.known _ (h.known _ known)
    case neg =>
      rw [other eq]
      exact f.origins q hq
  · have eq : q ≠ copy := by
      rintro rfl
      exact hq now
    exact (other eq).trans (f.fresh q hq)

end Frames

end State

-- The rows of a move, each in its store's side of the record.
theorem Change.move_eq_some {c : Change} {x y : Row} (h : c.move = some (x, y)) :
    (∃ e e', x.scope = .account ∧ y.scope = .global ∧ c.before.facts = [(x.fact, e)] ∧ c.before.globalFacts = [] ∧
      c.after.facts = [] ∧ c.after.globalFacts = [(y.fact, e')]) ∨
    ∃ e e', x.scope = .global ∧ y.scope = .account ∧ c.before.facts = [] ∧ c.before.globalFacts = [(x.fact, e)] ∧
      c.after.facts = [(y.fact, e')] ∧ c.after.globalFacts = [] := by
  rw [move] at h
  split at h
  case h_1 x' y' h₁ h₂ h₃ h₄ =>
    cases h
    exact .inl ⟨x'.2, y'.2, rfl, rfl, h₁, h₂, h₃, h₄⟩
  case h_2 x' y' h₁ h₂ h₃ h₄ =>
    cases h
    exact .inr ⟨x'.2, y'.2, rfl, rfl, h₁, h₂, h₃, h₄⟩
  case h_3 => cases h

theorem Change.restoreSide_eq {c : Change} {undo here : Bool} {db db' : Db} (ok : c.restoreSide undo here db = .ok db') :
    ∃ keys snapshot, db.restore
      (((if here then c.before.facts ++ c.after.facts else c.before.globalFacts ++ c.after.globalFacts).map (·.1.id)).dedup)
      keys snapshot = .ok db' ∧
    snapshot.facts = if here then (c.target undo).facts else (c.target undo).globalFacts := by
  cases here
  case false => exact ⟨_, _, ok, rfl⟩
  case true  => exact ⟨_, _, ok, rfl⟩

-- One side of a change that has one fact.
theorem Change.restore_row {c : Change} {undo here : Bool} {id : FactId} {db db' : Db}
    (ok : c.restoreSide undo here db = .ok db') (pos : id ≠ 0)
    (only : (if here then c.before.facts ++ c.after.facts else c.before.globalFacts ++ c.after.globalFacts).map (·.1.id) = [id]) :
    db.Apart db' (· = id) ∧ db'.content id =
      ((if here then (c.target undo).facts else (c.target undo).globalFacts).find? (·.1.id = id)).map (·.1.content) := by
  obtain ⟨keys, snapshot, ok, facts⟩ := restoreSide_eq ok
  rw [only, List.Nodup.dedup (List.nodup_singleton id)] at ok
  exact ⟨(Db.apart_restore ok).mono fun i hi => List.mem_singleton.mp hi, facts ▸ Db.content_restore ok pos⟩

-- The first write of a replay gives the fact back.
theorem Change.restore_gained {c : Change} {x y : Row} (undo : Bool) {db db' : Db} (h : c.move = some (x, y))
    (pos : (if undo then x else y).fact.id ≠ 0) (ok : c.restoreSide undo (c.hereFirst undo) db = .ok db') :
    (if c.hereFirst undo then Scope.account else .global) = (if undo then x else y).scope ∧
    db.Apart db' (· = (if undo then x else y).fact.id) ∧
    db'.content (if undo then x else y).fact.id = some (if undo then x else y).fact.content := by
  rcases move_eq_some h with ⟨e, e', sx, sy, h₁, h₂, h₃, h₄⟩ | ⟨e, e', sx, sy, h₁, h₂, h₃, h₄⟩
  all_goals
    cases undo
    all_goals
      have restored := restore_row ok pos (by simp [hereFirst, target, h₁, h₂, h₃, h₄])
      refine ⟨by simp [hereFirst, target, h₂, h₄, sx, sy], restored.left, restored.right.trans ?_⟩
      simp [hereFirst, target, h₁, h₂, h₃, h₄]

-- The second takes it from where it was.
theorem Change.restore_left {c : Change} {x y : Row} (undo : Bool) {db db' : Db} (h : c.move = some (x, y))
    (pos : (if undo then y else x).fact.id ≠ 0) (ok : c.restoreSide undo (!c.hereFirst undo) db = .ok db') :
    (if !c.hereFirst undo then Scope.account else .global) = (if undo then y else x).scope ∧
    db.Apart db' (· = (if undo then y else x).fact.id) ∧ db'.content (if undo then y else x).fact.id = none := by
  rcases move_eq_some h with ⟨e, e', sx, sy, h₁, h₂, h₃, h₄⟩ | ⟨e, e', sx, sy, h₁, h₂, h₃, h₄⟩
  all_goals
    cases undo
    all_goals
      have restored := restore_row ok pos (by simp [hereFirst, target, h₁, h₂, h₃, h₄])
      refine ⟨by simp [hereFirst, target, h₂, h₄, sx, sy], restored.left, restored.right.trans ?_⟩
      simp [hereFirst, target, h₁, h₂, h₃, h₄]

end Kaluta.Facts
