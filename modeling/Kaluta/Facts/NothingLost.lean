import Kaluta.Facts.Conserved

-- A fact that one of the stores has stays in one of them, with its label and value, until it is edited.
namespace Kaluta.Facts

namespace Change

variable {c : Change} {undo : Bool} {db db' : Db}

theorem move_of_globals (h : c.before.globalFacts = [] ∧ c.after.globalFacts = []) : c.move = none := by
  cases move : c.move
  case none   => rfl
  case some m =>
    rcases move_eq_some (x := m.1) (y := m.2) move with ⟨e, e', _, _, _, _, _, h₄⟩ | ⟨e, e', _, _, _, h₂, _, _⟩
    · rw [h.right] at h₄
      cases h₄
    · rw [h.left] at h₂
      cases h₂

theorem hereFirst_of_globals (h : c.before.globalFacts = [] ∧ c.after.globalFacts = []) (undo : Bool) :
    c.hereFirst undo = true := by
  cases undo
  case false => exact decide_eq_true h.right
  case true  => exact decide_eq_true h.left

theorem apart_restoreSide (ok : c.restoreSide undo here db = .ok db') : db.Apart db' fun i =>
    i ∈ (if here then c.before.facts ++ c.after.facts else c.before.globalFacts ++ c.after.globalFacts).map (·.1.id) := by
  obtain ⟨keys, snapshot, ok, _⟩ := restoreSide_eq ok
  exact (Db.apart_restore ok).mono fun i hi => List.mem_dedup.mp hi

-- Taking a fact away does not fail.
theorem restore_left_ok {x y : Row} (h : c.move = some (x, y)) (undo : Bool) (db : Db) :
    ∃ db', c.restoreSide undo (!c.hereFirst undo) db = .ok db' := by
  rcases move_eq_some h with ⟨e, e', sx, sy, h₁, h₂, h₃, h₄⟩ | ⟨e, e', sx, sy, h₁, h₂, h₃, h₄⟩
  all_goals
    cases undo
    all_goals
      simp [restoreSide, hereFirst, restoreHere, restoreGlobal, target, touched, Db.restore, Db.restoreFact,
        h₁, h₂, h₃, h₄, bind, Except.bind, pure, Except.pure]

end Change

namespace State

variable {s t : State} {scope : Scope} {i : Nat} {now : Millis} {call : Call}

theorem Sound.next {writes : Place → Prop} (h : s.Sound) (f : s.Frame t writes) (within : ∀ q, writes q → q ∈ call.writes)
    (alone : ∀ other ∈ s.calls.eraseIdx i, ∀ m ∈ other.moving, ¬s.About call (s.origin m.kept))
    (changes : ∀ scope, ∀ c ∈ (t.store scope).changes, c ∈ (s.store scope).changes ∨ t.Fits scope c)
    (calls : ∀ other ∈ t.calls, other ∈ s.calls.eraseIdx i ∨ t.Fine other ∧ ∀ m ∈ other.moving, t.Midway m) : t.Sound := by
  refine h.frame f changes fun other ho => (calls other ho).imp_left fun old => ?_
  exact ⟨List.mem_of_mem_eraseIdx old, fun m hm q w eq => alone other old m hm ⟨q, within q w, eq⟩⟩

theorem Sound.calls_subset (h : s.Sound) (stores : ∀ sc, t.store sc = s.store sc) (origin : t.origin = s.origin)
    (calls : ∀ call ∈ t.calls, call ∈ s.calls ∨ t.Fine call ∧ ∀ m ∈ call.moving, t.Midway m) : t.Sound :=
  h.frame (frame_same h stores origin) (fun sc _ hc => .inl (stores sc ▸ hc))
    fun call hc => (calls call hc).imp_left fun old => ⟨old, fun _ _ _ => False.elim⟩

theorem Sound.finish (h : s.Sound) : (s.finish i).Sound :=
  h.calls_subset (fun sc => by cases sc <;> rfl) rfl fun _ hc => .inl (List.mem_of_mem_eraseIdx hc)

theorem Holds.same (h : s.Holds n lv) (sound : s.Sound) (stores : ∀ sc, t.store sc = s.store sc)
    (origin : t.origin = s.origin) : t.Holds n lv :=
  h.frame sound (frame_same sound stores origin) fun _ => False.elim

-- A call's write fails, or its store is as the transaction leaves it.
theorem attempt_cases (s : State) (i : Nat) (scope : Scope) (tx : Db → Except String Db) (next : Option Call) :
    (∃ e, tx (s.store scope) = .error e ∧ s.attempt i scope tx next = s.finish i) ∨
    ∃ db, tx (s.store scope) = .ok db ∧
      (∀ sc, (s.attempt i scope tx next).store sc = if sc = scope then db else s.store sc) ∧
      (s.attempt i scope tx next).origin = s.origin ∧
      ∀ other ∈ (s.attempt i scope tx next).calls, other ∈ s.calls.eraseIdx i ∨ next = some other := by
  rw [attempt]
  split
  case h_1 e failed => exact .inl ⟨e, failed, rfl⟩
  case h_2 db ok    =>
    have calls : (s.setStore scope db).calls = s.calls := by cases scope <;> rfl
    have origin : (s.setStore scope db).origin = s.origin := by cases scope <;> rfl
    refine .inr ⟨db, ok, ?_⟩
    split
    case h_1 =>
      refine ⟨fun sc => ?_, origin, fun other ho => .inl (calls ▸ ho)⟩
      rw [← store_setStore]
      cases sc <;> rfl
    case h_2 call =>
      refine ⟨fun sc => ?_, origin, fun other ho => (mem_set ho).imp_right fun eq => congrArg some eq.symm⟩
      rw [← store_setStore]
      cases sc <;> rfl

-- What a call's next write makes of a state.
structure Goes (s t : State) (call : Call) : Prop where
  sound : t.Sound
  holds : ∀ n lv, ¬(call.isEdit = true ∧ s.About call n) → s.Holds n lv → t.Holds n lv
  last  : call.isLast = true → ∀ m ∈ call.moving, ∃! scope, t.HoldsIn (s.origin m.kept) scope

section Go

variable (h : s.Sound) (there : s.calls[i]? = some call)
  (alone : ∀ other ∈ s.calls.eraseIdx i, ∀ m ∈ other.moving, ¬s.About call (s.origin m.kept))

include h alone

-- The last write of a move, or of the replay of one.
theorem goes_last {m : Moving} {db : Db} (there : call ∈ s.calls) (moving : call.moving = some m)
    (written : m.left ∈ call.writes) (keeps : Db.Keeps (s.store m.left.1) db (· = m.left.2))
    (gone : db.content m.left.2 = none) (stores : ∀ sc, t.store sc = if sc = m.left.1 then db else s.store sc)
    (origin : t.origin = s.origin) (calls : ∀ other ∈ t.calls, other ∈ s.calls.eraseIdx i)
    (changes : ∀ c ∈ db.changes, c ∈ (s.store m.left.1).changes ∨ t.Fits m.left.1 c) : s.Goes t call := by
  have midway := h.moving call there m moving
  have f := frame_store h keeps stores origin
  have f' : s.Frame t (· = m.left) :=
    ⟨f.zero, f.known, f.origin, fun q hq w => f.content q hq fun ⟨a, b⟩ => w (Prod.ext a b),
      fun q hq => .inl (origin ▸ h.fresh q hq), f.origins, f.fresh⟩
  refine ⟨h.next f' (fun q hq => hq ▸ written) alone (fun sc c hc => ?_) fun other ho => .inl (calls other ho),
    fun n lv _ holds => holds.last h midway f', fun _ m' hm => ?_⟩
  · rw [stores] at hc
    split at hc
    case isTrue eq => exact eq ▸ changes c hc
    case isFalse   => exact .inl hc
  · cases moving.symm.trans hm
    refine midway.last h f' origin ?_
    rw [content, stores, if_pos rfl, gone]

omit alone in
-- A write that fails ends the call.
theorem goes_finish (last : call.isLast = false) : s.Goes (s.finish i) call where
  sound             := h.finish
  holds n lv _ hold := hold.same h (fun sc => by cases sc <;> rfl) rfl
  last hl           := absurd (last.symm.trans hl) Bool.false_ne_true

-- A write to one store that is not the last.
theorem goes_write {db : Db} {p : FactId → Prop} (last : call.isLast = false)
    (keeps : Db.Keeps (s.store scope) db p) (within : ∀ k, p k → (scope, k) ∈ call.writes)
    (stores : ∀ sc, t.store sc = if sc = scope then db else s.store sc) (origin : t.origin = s.origin)
    (changes : ∀ c ∈ db.changes, c ∈ (s.store scope).changes ∨ t.Fits scope c)
    (calls : ∀ other ∈ t.calls, other ∈ s.calls.eraseIdx i ∨ t.Fine other ∧ ∀ m ∈ other.moving, t.Midway m)
    (holds : ∀ n lv, ¬(call.isEdit = true ∧ s.About call n) → s.Holds n lv →
      (∀ q, (q.1 = scope ∧ p q.2) → s.origin q ≠ n) ∨ t.Holds n lv) : s.Goes t call := by
  have f := frame_store h keeps stores origin
  have within' (q : Place) (w : q.1 = scope ∧ p q.2) : q ∈ call.writes :=
    (show q = (scope, q.2) from Prod.ext w.left rfl) ▸ within q.2 w.right
  refine ⟨h.next f within' alone (fun sc c hc => ?_) calls, fun n lv ne hold => ?_, fun hl => absurd (last.symm.trans hl) Bool.false_ne_true⟩
  · rw [stores] at hc
    split at hc
    case isTrue eq => exact eq ▸ changes c hc
    case isFalse   => exact .inl hc
  · exact (holds n lv ne hold).elim (hold.frame h f) id

variable [Letters]

theorem goes_applying {edits : List FactEdit} {categoryEdits : List CategoryEdit}
    (is : call = .applying scope edits categoryEdits reason) : s.Goes (s.go i now call) call := by
  subst is
  rw [go]
  rcases attempt_cases s i scope (fun db => (·.1) <$> db.applyFacts edits categoryEdits reason now) none with
    ⟨_, _, eq⟩ | ⟨db, ok, stores, origin, calls⟩
  · rw [eq]
    exact goes_finish h rfl
  · obtain ⟨r, applied, rfl⟩ := Except.map_eq_ok.mp ok
    have ⟨keeps, changes⟩ := applyFacts_eq_ok applied
    have within (k) (hk : ∃ e ∈ edits, e.rewrites = some k) :
        (scope, k) ∈ (Call.applying scope edits categoryEdits reason).writes := by
      obtain ⟨e, he, rewrites⟩ := hk
      exact List.mem_map_of_mem (List.mem_filterMap.mpr ⟨e, he, rewrites⟩)
    refine goes_write h alone rfl keeps within stores origin (fun c hc => (changes c hc).imp_right .inl)
      (fun other ho => .inl ((calls other ho).resolve_right nofun)) fun n lv ne _ => .inl fun q w eq => ne ⟨rfl, ?_⟩
    exact ⟨q, (show q = (scope, q.2) from Prod.ext w.left rfl) ▸ within q.2 w.right, eq⟩

theorem goes_copying {f : FactRow} {category : Option CategoryRow} {target : Scope} {quotes : List FactEvidence}
    (there : call ∈ s.calls) (is : call = .copying target f quotes category)
    (reads : ∀ r ∈ s.rows, s.origin (target.other, f.id) = s.origin r.place →
      r.place = (target.other, f.id) ∧ r.fact.content = f.content) : s.Goes (s.go i now call) call := by
  have known : s.Known (target.other, f.id) := by
    have fine := h.calls call there
    rw [is] at fine
    exact fine
  subst is
  rw [go, copy]
  split
  case h_1 => exact goes_finish h rfl
  case h_2 db moved before after ok =>
    obtain ⟨apart, id, le, written, same⟩ := copyFact_eq_ok ok
    generalize made : ({ s.setStore target db with
      calls  := s.calls.set i (.recording target f quotes moved before after)
      origin := Function.update s.origin (target, moved.1.id) (s.origin (target.other, f.id)) } : State) = t
    have stores (sc) : t.store sc = if sc = target then db else s.store sc := by
      rw [← made, ← store_setStore]
      cases sc <;> rfl
    have origin : t.origin = Function.update s.origin (target, moved.1.id) (s.origin (target.other, f.id)) := made ▸ rfl
    have new : ¬s.Known (target, moved.1.id) := fun old => Nat.not_succ_le_self _ (id ▸ old.right)
    have now' : t.Known (target, moved.1.id) :=
      ⟨id ▸ Nat.succ_ne_zero _, le.trans_eq (by rw [stores, if_pos rfl])⟩
    obtain ⟨frame, content⟩ := frame_copy h known new now' apart.toKeeps stores origin
    have copied : t.origin (target, moved.1.id) = s.origin (target.other, f.id) := by rw [origin, Function.update_self]
    have there' : t.content (target, moved.1.id) = some f.content := by
      rw [State.content, stores, if_pos rfl, written]
    have midway : t.Midway ⟨(target.other, f.id), (target, moved.1.id), f.content⟩ := by
      refine ⟨frame.known _ known, now', (frame.origin _ known).trans copied.symm, by cases target <;> rintro ⟨⟩, there',
        fun p lv eq hp => ?_⟩
      by_cases this : p = (target, moved.1.id)
      case pos => exact ⟨.inr this, Option.some.inj (hp.symm.trans (this ▸ there'))⟩
      case neg =>
        rw [copied, origin, Function.update_of_ne this] at eq
        have old : s.Known p := by
          by_contra unknown
          exact unknown (h.fresh p unknown ▸ eq ▸ h.known _ known)
        obtain ⟨r, hr, rfl, rfl⟩ := row_of_content ((content p old).symm.trans hp)
        exact (reads r hr eq.symm).imp_left .inl
    refine ⟨h.next frame (fun q hq => hq ▸ List.mem_singleton_self _) alone (fun sc c hc => .inl ?_) fun other ho => ?_,
      fun n lv _ hold => hold.of_content h frame fun p hp _ => content p hp, (by rintro ⟨⟩)⟩
    · rw [stores] at hc
      split at hc
      case isTrue eq => exact eq ▸ apart.changes ▸ hc
      case isFalse   => exact hc
    · rw [← made] at ho
      refine (mem_set ho).imp_right ?_
      rintro rfl
      refine ⟨same, fun m hm => ?_⟩
      cases hm
      exact midway

theorem goes_recording {f : FactRow} {before after : Option CategoryRow} {target : Scope} {quotes : List FactEvidence}
    {moved : FactRow × List FactEvidence} (there : call ∈ s.calls)
    (is : call = .recording target f quotes moved before after) : s.Goes (s.go i now call) call := by
  have same : moved.1.content = f.content := by
    have fine := h.calls call there
    rw [is] at fine
    exact fine
  have midway := h.moving call there ⟨(target.other, f.id), (target, moved.1.id), f.content⟩ (by rw [is]; rfl)
  rw [is, go]
  rcases attempt_cases s i .account (fun db => pure (db.recordMove target f quotes moved before after))
    (if target = .account then some (.removing f moved.1) else none) with ⟨_, failed, _⟩ | ⟨db, ok, stores, origin, calls⟩
  · cases failed
  · cases ok
    generalize s.attempt i .account (fun db => pure (db.recordMove target f quotes moved before after))
      (if target = .account then some (.removing f moved.1) else none) = t at *
    rw [← is]
    cases target
    case account =>
      have keeps : Db.Keeps (s.store .account) (s.account.recordMove .account f quotes moved before after) fun _ => False :=
        keeps_recordChange (.refl _ _)
      have frame := frame_store (t := t) h keeps stores origin
      have still := midway.frame h frame fun q w => absurd w.right id
      refine goes_write h alone (by rw [is]; rfl) keeps (fun _ => False.elim) stores origin (fun c hc => ?_) (fun other ho => ?_)
        fun n lv _ _ => .inl fun q w => w.right.elim
      · refine (mem_recordChange hc).imp_right ?_
        rintro ⟨b, a⟩
        refine .inr ⟨rfl, ⟨.global, f⟩, ⟨.account, moved.1⟩, ?_, still.left, still.right, still.same, same.symm, (by rintro ⟨⟩)⟩
        rw [Change.move, b, a]
      · refine (calls other ho).imp_right fun eq => ?_
        cases eq
        exact ⟨trivial, fun m hm => by cases hm; exact still⟩
    case global =>
      have keeps : Db.Keeps (s.store .account) (s.account.recordMove .global f quotes moved before after)
          fun k => Scope.global = .global ∧ k = f.id := keeps_recordMove .global
      have frame := frame_store (t := t) h keeps stores origin
      refine goes_last h alone there (m := ⟨(.account, f.id), (.global, moved.1.id), f.content⟩) (by rw [is]; rfl)
        (by rw [is]; exact List.mem_singleton_self _) ⟨fun k hk ne => keeps.content k hk fun w => ne w.right, keeps.lastId, keeps.zero⟩
        content_recordMove stores origin (fun other ho => (calls other ho).resolve_right (by rintro ⟨⟩)) fun c hc => ?_
      refine (mem_recordChange hc).imp_right ?_
      rintro ⟨b, a⟩
      have gone : (s.account.gone f quotes).1.content = f.content :=
        gone_content (fun lv hlv => (midway.rows (.account, f.id) lv midway.same hlv).right) quotes
      have place : Row.place ⟨.account, (s.account.gone f quotes).1⟩ = (.account, f.id) := Prod.ext rfl (gone_id _ f quotes)
      refine .inr ⟨rfl, ⟨.account, (s.account.gone f quotes).1⟩, ⟨.global, moved.1⟩, by rw [Change.move, b, a],
        place ▸ frame.known _ midway.left, frame.known _ midway.right, ?_, gone.trans same.symm, (by rintro ⟨⟩)⟩
      rw [place, origin]
      exact midway.same

theorem goes_removing {f moved : FactRow} (there : call ∈ s.calls) (is : call = .removing f moved) :
    s.Goes (s.go i now call) call := by
  rw [is, go]
  rcases attempt_cases s i .global (fun db => pure (db.delete f.id)) none with ⟨_, failed, _⟩ | ⟨db, ok, stores, origin, calls⟩
  · cases failed
  · cases ok
    rw [← is]
    exact goes_last h alone there (m := ⟨(.global, f.id), (.account, moved.id), f.content⟩) (by rw [is]; rfl)
      (by rw [is]; exact List.mem_singleton_self _) Db.apart_delete.toKeeps (by rw [Db.content_delete, if_pos rfl]) stores origin
      (fun other ho => (calls other ho).resolve_right nofun) fun _ hc => .inl hc

theorem goes_replaying {c : Change} {undo : Bool} (there : call ∈ s.calls) (is : call = .replaying scope c undo)
    (reads : ∀ x y, c.move = some (x, y) → ∀ r ∈ s.rows, s.origin x.place = s.origin r.place →
      (r.place = x.place ∨ r.place = y.place) ∧ r.fact.content = x.fact.content) : s.Goes (s.go i now call) call := by
  have fits : s.Fits scope c := by
    have fine := h.calls call there
    rw [is] at fine
    exact fine
  rw [is, go]
  rcases attempt_cases s i (if c.hereFirst undo then scope else .global) (c.restoreSide undo (c.hereFirst undo))
    (some (.finishing scope c undo)) with ⟨_, _, eq⟩ | ⟨db, ok, stores, origin, calls⟩
  · rw [eq, ← is]
    exact goes_finish h (by rw [is]; rfl)
  generalize s.attempt i (if c.hereFirst undo then scope else .global) (c.restoreSide undo (c.hereFirst undo))
    (some (.finishing scope c undo)) = t at *
  rw [← is]
  rcases fits with globals | ⟨account, x, y, move, paired⟩
  · have none := Change.move_of_globals globals
    have here := Change.hereFirst_of_globals globals undo
    have apart := Change.apart_restoreSide ok
    simp only [here, if_true] at apart stores
    have within (k) (hk : k ∈ (c.before.facts ++ c.after.facts).map (·.1.id)) : (scope, k) ∈ call.writes := by
      rw [is, Call.writes, none]
      exact List.mem_map_of_mem hk
    refine goes_write h alone (by rw [is]; rfl) apart.toKeeps within stores origin (fun c hc => .inl (apart.changes ▸ hc))
      (fun other ho => (calls other ho).imp_right fun eq => ?_) fun n lv ne _ => .inl fun q w eq => ne ⟨?_, q, ?_, eq⟩
    · cases eq
      refine ⟨.inl globals, fun m hm => ?_⟩
      cases undo <;> simp [Call.moving, none] at hm
    · rw [is, Call.isEdit, none]
      rfl
    · exact (show q = (scope, q.2) from Prod.ext w.left rfl) ▸ within q.2 w.right
  · subst account
    obtain ⟨l, g, hg, hl, twins, reads, written⟩ : ∃ l g, (if undo then x else y) = g ∧ (if undo then y else x) = l ∧
        s.Twins l g ∧ (∀ r ∈ s.rows, s.origin g.place = s.origin r.place →
          (r.place = l.place ∨ r.place = g.place) ∧ r.fact.content = g.fact.content) ∧ g.place ∈ call.writes := by
      rw [is, Call.writes, move]
      have reads := reads x y move
      cases undo
      case false =>
        refine ⟨x, y, rfl, rfl, paired, fun r hr eq => ?_, List.mem_cons_of_mem _ (List.mem_singleton_self _)⟩
        exact paired.content ▸ reads r hr (paired.same.trans eq)
      case true  =>
        refine ⟨y, x, rfl, rfl, ⟨paired.right, paired.left, paired.same.symm, paired.content.symm, paired.scopes.symm⟩,
          fun r hr eq => ?_, List.mem_cons_self⟩
        exact (reads r hr eq).imp_left Or.symm
    obtain ⟨side, apart, gained⟩ := Change.restore_gained undo move (hg ▸ twins.right.left) ok
    rw [hg] at side apart gained
    rw [side] at apart
    simp only [side] at stores
    have frame := frame_store h apart.toKeeps stores origin
    have kept : t.content g.place = some g.fact.content := by
      rw [State.content, stores]
      exact (if_pos rfl).symm ▸ gained
    have moving : (Call.finishing .account c undo).moving = some ⟨l.place, g.place, g.fact.content⟩ := by
      subst hg hl
      cases undo <;> simp [Call.moving, move]
    have midway : t.Midway ⟨l.place, g.place, g.fact.content⟩ := by
      refine ⟨frame.known _ twins.left, frame.known _ twins.right, by rw [origin]; exact twins.same, twins.scopes, kept,
        fun p lv eq hp => ?_⟩
      rw [origin] at eq
      by_cases this : p = g.place
      case pos => exact ⟨.inr this, Option.some.inj (hp.symm.trans (this ▸ kept))⟩
      case neg =>
        have old : s.Known p := by
          by_contra unknown
          exact unknown (h.fresh p unknown ▸ eq ▸ h.known _ twins.right)
        have same := frame.content p old fun w => this (Prod.ext w.left w.right)
        obtain ⟨r, hr, rfl, rfl⟩ := row_of_content (same.symm.trans hp)
        exact reads r hr eq.symm
    refine goes_write h alone (by rw [is]; rfl) apart.toKeeps (fun k hk => hk ▸ written) stores origin
      (fun c hc => .inl (apart.changes ▸ hc)) (fun other ho => (calls other ho).imp_right fun eq => ?_) fun n lv _ hold => ?_
    · cases eq
      refine ⟨Fits.frame (.inr ⟨rfl, x, y, move, paired⟩) frame, fun m hm => ?_⟩
      cases moving.symm.trans hm
      exact midway
    · by_cases this : s.origin g.place = n
      case pos =>
        obtain ⟨r, hr, rfl, rfl⟩ := hold
        obtain ⟨r', hr', place, content⟩ := row_of_content kept
        exact .inr ⟨r', hr', by rw [place, origin, this], content.trans (reads r hr this).right.symm⟩
      case neg => exact .inl fun q w eq => this ((show q = g.place from Prod.ext w.left w.right) ▸ eq)

theorem goes_finishing {c : Change} {undo : Bool} (there : call ∈ s.calls) (is : call = .finishing scope c undo) :
    s.Goes (s.go i now call) call := by
  have fits : s.Fits scope c := by
    have fine := h.calls call there
    rw [is] at fine
    exact fine
  rw [is, go]
  rcases fits with globals | ⟨account, x, y, move, paired⟩
  · have none := Change.move_of_globals globals
    have here := Change.hereFirst_of_globals globals undo
    have still (m) (hm : m ∈ call.moving) : False := by
      rw [is] at hm
      cases undo <;> simp [Call.moving, none] at hm
    have edit : call.isEdit = true := by
      rw [is, Call.isEdit, none]
      rfl
    rcases attempt_cases s i (if !c.hereFirst undo then scope else .global) (c.restoreSide undo (!c.hereFirst undo)) .none with
      ⟨_, _, eq⟩ | ⟨db, ok, stores, origin, calls⟩
    · rw [eq, ← is]
      exact ⟨h.finish, fun n lv _ hold => hold.same h (fun sc => by cases sc <;> rfl) rfl, fun _ m hm => (still m hm).elim⟩
    · generalize s.attempt i (if !c.hereFirst undo then scope else .global) (c.restoreSide undo (!c.hereFirst undo)) .none = t
        at *
      rw [← is]
      have apart := Change.apart_restoreSide ok
      simp only [here, Bool.not_true, Bool.false_eq_true, if_false, globals.left, globals.right, List.append_nil, List.map_nil,
        List.not_mem_nil] at apart stores
      have frame := frame_store h apart.toKeeps stores origin
      refine ⟨h.next frame (fun q w => w.right.elim) alone (fun sc c hc => .inl ?_)
        fun other ho => .inl ((calls other ho).resolve_right (by rintro ⟨⟩)),
        fun n lv _ hold => hold.frame h frame fun q w => w.right.elim, fun _ m hm => (still m hm).elim⟩
      rw [stores] at hc
      split at hc
      case isTrue eq => exact eq ▸ apart.changes ▸ hc
      case isFalse   => exact hc
  · subst account
    obtain ⟨l, g, hg, hl, twins, written⟩ : ∃ l g, (if undo then x else y) = g ∧ (if undo then y else x) = l ∧
        s.Twins l g ∧ l.place ∈ call.writes := by
      rw [is, Call.writes, move]
      cases undo
      case false => exact ⟨x, y, rfl, rfl, paired, List.mem_cons_self⟩
      case true  =>
        exact ⟨y, x, rfl, rfl, ⟨paired.right, paired.left, paired.same.symm, paired.content.symm, paired.scopes.symm⟩,
          List.mem_cons_of_mem _ (List.mem_singleton_self _)⟩
    have moving : call.moving = some ⟨l.place, g.place, g.fact.content⟩ := by
      subst hg hl is
      cases undo <;> simp [Call.moving, move]
    rcases attempt_cases s i (if !c.hereFirst undo then .account else .global) (c.restoreSide undo (!c.hereFirst undo)) .none with
      ⟨_, failed, _⟩ | ⟨db, ok, stores, origin, calls⟩
    · obtain ⟨_, ok⟩ := Change.restore_left_ok move undo (s.store (if !c.hereFirst undo then .account else .global))
      cases failed.symm.trans ok
    · generalize s.attempt i (if !c.hereFirst undo then .account else .global) (c.restoreSide undo (!c.hereFirst undo)) .none = t
        at *
      rw [← is]
      obtain ⟨side, apart, gone⟩ := Change.restore_left undo move (hl ▸ twins.left.left) ok
      rw [hl] at side apart gone
      rw [side] at apart
      simp only [side] at stores
      exact goes_last h alone there moving written apart.toKeeps gone stores origin
        (fun other ho => (calls other ho).resolve_right (by rintro ⟨⟩)) fun c hc => .inl (apart.changes ▸ hc)

end Go

theorem Sound.start : ({} : State).Sound where
  zero scope      := by cases scope <;> rfl
  known p hp      := hp
  fresh _ _       := rfl
  changes scope _ := by cases scope <;> exact fun hc => absurd hc List.not_mem_nil
  calls _ hc      := absurd hc List.not_mem_nil
  moving _ hc     := absurd hc List.not_mem_nil

theorem goes_go [Letters] (h : s.Sound) (there : s.calls[i]? = some call) (calm : s.Undisturbed (.go i now)) :
    s.Goes (s.go i now call) call := by
  have ⟨alone, reads⟩ := calm call there
  have member : call ∈ s.calls := List.mem_of_getElem? there
  cases is : call
  case applying  => exact is ▸ goes_applying h (is ▸ alone) is
  case copying target f quotes category =>
    subst is
    refine goes_copying h alone member rfl fun r hr eq => ?_
    have ⟨place, content⟩ := reads _ rfl r hr ⟨_, List.mem_singleton_self _, eq⟩
    exact ⟨List.mem_singleton.mp place, content⟩
  case recording => subst is; exact goes_recording h alone member rfl
  case removing  => subst is; exact goes_removing h alone member rfl
  case replaying scope c undo =>
    subst is
    refine goes_replaying h alone member rfl fun x y move r hr eq => ?_
    have ⟨place, content⟩ := reads ([x.place, y.place], x.fact.content) (by rw [Call.reads, move]; rfl) r hr
      ⟨_, List.mem_cons_self, eq⟩
    exact ⟨by simpa using place, content⟩
  case finishing => subst is; exact goes_finishing h alone member rfl

-- A call begins: what it is to write is known.
theorem Sound.begin_ (h : s.Sound) (fine : s.Fine call) (moving : call.moving = none) : (s.begin_ call).Sound := by
  have stores (sc) : (s.begin_ call).store sc = s.store sc := by cases sc <;> rfl
  refine h.calls_subset stores rfl fun other ho => (List.mem_append.mp ho).imp_right fun last => ?_
  cases List.mem_singleton.mp last
  exact ⟨Fine.frame fine (frame_same h stores rfl), fun m hm => by cases moving.symm.trans hm⟩

-- A step keeps what is known of the calls, and every fact that it does not edit.
theorem sound_step [Letters] {a : Action} (h : s.Sound) (calm : s.Undisturbed a) (step : s.step a = some t) :
    t.Sound ∧ ∀ n lv, ¬s.Edits a n → s.Holds n lv → t.Holds n lv := by
  cases a
  case apply scope edits categoryEdits reason =>
    simp only [State.step] at step
    split at step
    · cases step
    split at step
    · cases step
    cases step
    exact ⟨h.begin_ trivial rfl, fun n lv _ hold => hold.same h (fun sc => by cases sc <;> rfl) rfl⟩
  case move id target =>
    simp only [State.step] at step
    split at step
    · cases step
    case h_2 f quotes category ok =>
      cases step
      have there : (s.store target.other).get id = some f := by
        rw [Db.readFact] at ok
        split at ok
        case h_1 => cases ok
        case h_2 found => cases ok; exact found
      have content : s.content (target.other, f.id) = some f.content := Db.content_of_mem (Table.find?_mem there)
      exact ⟨h.begin_ (h.known_of_content content) rfl, fun n lv _ hold => hold.same h (fun sc => by cases sc <;> rfl) rfl⟩
  case replay scope id undo =>
    have ⟨c, found, eq⟩ := Option.map_eq_some_iff.mp step
    subst eq
    exact ⟨h.begin_ (h.changes scope c (List.mem_of_find?_eq_some found)) rfl,
      fun n lv _ hold => hold.same h (fun sc => by cases sc <;> rfl) rfl⟩
  case go i now =>
    have ⟨call, there, eq⟩ := Option.map_eq_some_iff.mp step
    subst eq
    have goes := goes_go h there calm
    exact ⟨goes.sound, fun n lv ne => goes.holds n lv fun edit => ne ⟨call, there, edit⟩⟩
  case stop i =>
    simp only [State.step] at step
    split at step
    · cases step
      exact ⟨h.finish, fun n lv _ hold => hold.same h (fun sc => by cases sc <;> rfl) rfl⟩
    · cases step
  case crash =>
    cases step
    exact ⟨h.calls_subset (fun sc => by cases sc <;> rfl) rfl fun _ hc => absurd hc List.not_mem_nil,
      fun n lv _ hold => hold.same h (fun sc => by cases sc <;> rfl) rfl⟩

end State

open State

variable {s t : State}

section Runs

variable [Letters]

theorem sound_of_reachable (h : facts.Reachable Undisturbed s) : s.Sound := by
  refine h.invariant (fun s hs => ?_) fun s a s' sound calm step => (sound_step sound calm step).left
  cases hs
  exact Sound.start

-- From any state that is reached, a fact that one of the stores has is in one of them in whatever follows, with its
-- label and value, until it is edited; and after a move of it, or an undo or redo of that, it is in one of them only.
theorem reachable_facts_kept (h : facts.Reachable Undisturbed s) :
    (∀ t n content, facts.Leads (fun s a => Undisturbed s a ∧ ¬s.Edits a n) s t → s.Holds n content → t.Holds n content) ∧
    ∀ a t n, s.Undisturbed a → facts.step s a = some t → s.Completes a n → ∃! scope, t.HoldsIn n scope := by
  have sound := sound_of_reachable h
  constructor
  · intro t n content leads hold
    exact (leads.invariant (P := fun s => s.Sound ∧ s.Holds n content) ⟨sound, hold⟩ fun s a s' ⟨sound, hold⟩ ⟨calm, ne⟩ step =>
      have ⟨sound', keeps⟩ := sound_step sound calm step
      ⟨sound', keeps n content ne hold⟩).right
  · intro a t n calm step completes
    cases a
    case go i now =>
      obtain ⟨call, there, last, m, hm, rfl⟩ := completes
      have ⟨_, found, eq⟩ := Option.map_eq_some_iff.mp step
      cases there.symm.trans found
      subst eq
      exact (goes_go sound there calm).last last m hm
    all_goals exact completes.elim

end Runs

section Phone

def phone (value : String) : FactFields where
  category := "contact"
  label    := "Phone"
  value    := value

-- A fact is made global; the write that records it is to come.
def madeGlobal : List Action :=
  [.apply .account [.add (phone "1") .accepted .you] [] "add", .go 0 1, .move 1 .global, .go 0 2]

theorem reachable_facts_kept_phone :
    ∃ s : State, (∃! scope, s.HoldsIn (.account, 1) scope) ∧ s.Holds (.account, 1) ("Phone", "1") := by
  have ran : ((@facts ascii).run Undisturbed {} madeGlobal).any fun s =>
      s.Undisturbed (.go 0 3) ∧ s.Holds (.account, 1) ("Phone", "1") ∧ ((@facts ascii).step s (.go 0 3)).isSome ∧
      (s.calls[0]?.any fun call => call.isLast ∧ ¬call.isEdit ∧ call.moving.any (s.origin ·.kept = (.account, 1))) := by
    decide +kernel
  obtain ⟨s, run, h⟩ := (Option.any_eq_true _ _).mp ran
  obtain ⟨calm, hold, goes, there⟩ := of_decide_eq_true h
  obtain ⟨call, found, last⟩ := (Option.any_eq_true _ _).mp there
  obtain ⟨last, edit, kept⟩ := of_decide_eq_true last
  obtain ⟨m, moving, origin⟩ := (Option.any_eq_true _ _).mp kept
  obtain ⟨t, step⟩ := Option.isSome_iff_exists.mp goes
  have reachable : (@facts ascii).Reachable Undisturbed s := System.Reachable.run (.start rfl) run
  have safe := @reachable_facts_kept s ascii reachable
  have unedited : ¬s.Edits (.go 0 3) (.account, 1) := by
    rintro ⟨other, there, is, _⟩
    cases found.symm.trans there
    exact edit is
  exact ⟨t, safe.right _ t _ calm step ⟨call, found, last, m, moving, of_decide_eq_true origin⟩,
    safe.left t _ _ (.single ⟨_, ⟨calm, unedited⟩, step⟩) hold⟩

-- A global fact is edited when its move to the account has been recorded and not yet taken it away.
theorem edited_meanwhile : ¬∀ s a t n content, (@facts ascii).Reachable (fun _ _ => True) s →
    (@facts ascii).step s a = some t → ¬s.Edits a n → s.Holds n content → t.Holds n content := by
  intro claim
  have ran : ((@facts ascii).run (fun _ _ => True) {} [
      .apply .global [.add (phone "1") .accepted .you] [] "add", .go 0 1, .move 1 .account, .go 0 2, .go 0 3,
      .apply .global [.update 1 (phone "2")] [] "edit", .go 1 4]).any fun s =>
      s.Holds (.global, 1) ("Phone", "2") ∧ (s.calls[0]?.any fun call => ¬call.isEdit) ∧
      ((@facts ascii).step s (.go 0 5)).any fun t => ¬t.Holds (.global, 1) ("Phone", "2") := by
    decide +kernel
  obtain ⟨s, run, h⟩ := (Option.any_eq_true _ _).mp ran
  obtain ⟨hold, there, gone⟩ := of_decide_eq_true h
  obtain ⟨call, found, edit⟩ := (Option.any_eq_true _ _).mp there
  obtain ⟨t, step, gone⟩ := (Option.any_eq_true _ _).mp gone
  have unedited : ¬s.Edits (.go 0 5) (.global, 1) := by
    rintro ⟨other, there, is, _⟩
    cases found.symm.trans there
    exact of_decide_eq_true edit is
  exact of_decide_eq_true gone (claim s (.go 0 5) t _ _ (System.Reachable.run (.start rfl) run) step unedited hold)

end Phone

end Kaluta.Facts
