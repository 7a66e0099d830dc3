import Kaluta.Resync.Engine

-- A resync catches up with the server, and when.
namespace Kaluta.Resync

open Download (Phase SyncWindow phasesFor queuePriority HEADERS_ONLY)

variable {window : SyncWindow} {found : Phase → Mail → Bool}

namespace Call

-- Whether a call has a message of a phase to list.
def lists (c : Call) (p : Phase) (id : String) (refetch : Bool) : Prop :=
  .phase p refetch ∈ c.prog ∨ c.prog.head? = some (.pages p refetch) ∧ id ∈ c.ids

theorem refetches_of_lists {c : Call} {p : Phase} {id : String} (h : c.lists p id true) : c.refetches = true := by
  refine List.any_eq_true.mpr ?_
  rcases h with mem | ⟨head, _⟩
  · exact ⟨_, mem, rfl⟩
  · exact ⟨_, List.mem_of_mem_head? head, rfl⟩

-- How the programs go on.
def shaped (window : SyncWindow) : List Instr → Bool
  | []        => true
  | i :: prog => shaped window prog && match i with
    | .writeCursor     => prog = listPhases window true ++ [.setBootstrapped]
    | .setBootstrapped => prog = []
    | .fetch           => prog = [.store true] ∨ prog = [.store false]
    | .store _         => prog = []
    | _                => true

theorem shaped_tail {i : Instr} {prog : List Instr} (h : shaped window (i :: prog) = true) :
    shaped window prog = true :=
  (Bool.and_eq_true_iff.mp h).left

theorem shaped_listPhases {refetch : Bool} : shaped window (listPhases window refetch ++ [.setBootstrapped]) = true := by
  rw [listPhases]
  induction phasesFor window
  case nil            => rfl
  case cons p phases ih => simpa [shaped] using ih

theorem lists_listPhases {c : Call} {refetch : Bool} {p : Phase} {id : String} {prog : List Instr}
    (h : c.prog = listPhases window refetch ++ prog) (hp : p ∈ phasesFor window) : c.lists p id refetch :=
  .inl (h ▸ List.mem_append_left _ (List.mem_map_of_mem hp))

end Call

namespace State

variable {s s' t u : State} {c c' : Call}

def held (s : State) (id : String) : Prop :=
  ∃ n, s.db.keeps n id = true

-- Unless the cursor has expired, every stored message is as it is on the server, or is queued or to be listed; and what
-- is in the window is stored or queued once it was listed.
structure Inv (window : SyncWindow) (found : Phase → Mail → Bool) (s : State) : Prop where
  shape : ∀ c ∈ s.calls, Call.shaped window c.prog = true
  stale : s.expired = false → ∀ row ∈ s.db.messages, s.current row.id = true ∨
    ∃ c ∈ s.calls, ∃ m ∈ s.mail, m.id = row.id ∧ ∃ p, found p m = true ∧ c.lists p m.id true
  whole : s.expired = false → s.db.bootstrapped = true → ∀ m ∈ s.mail, ∀ p ∈ phasesFor window, found p m = true →
    s.held m.id
  fills : s.expired = false → ∀ c ∈ s.calls, .setBootstrapped ∈ c.prog → ∀ m ∈ s.mail, ∀ p ∈ phasesFor window,
    found p m = true → s.held m.id ∨ ∃ refetch, c.lists p m.id refetch

theorem current_iff {id : String} : s.current id = true ↔
    ∃ m ∈ s.mail, m.id = id ∧ (s.labels id = m.labels ∨ ∃ q ∈ s.db.queue, q.id = id) := by
  simp only [current, Option.any_eq_true, Table.find?_eq_some_iff, Bool.or_eq_true, decide_eq_true_eq,
    Option.isSome_iff_exists, and_assoc]

theorem Inv.catchesUp (h : s.Inv window found) : s.CatchesUp window found := by
  intro boot empty fresh quiet
  have none_ (q) (hq : q ∈ s.db.queue) : False := by
    have := Table.mem_rows.mpr hq
    simp [empty] at this
  refine ⟨fun row hrow => ?_, fun m hm p hp hf => ?_⟩
  · rcases h.stale fresh row hrow with now | ⟨c, hc, _, _, _, _, _, lists⟩
    · obtain ⟨m, hm, eq, same | ⟨q, hq, _⟩⟩ := current_iff.mp now
      · exact ⟨m, hm, eq, same⟩
      · exact (none_ q hq).elim
    · obtain ⟨i, hi, refetches⟩ := List.any_eq_true.mp (Call.refetches_of_lists lists)
      have := List.all_eq_true.mp (List.all_eq_true.mp quiet c hc) i hi
      rcases of_decide_eq_true this with rfl | rfl | rfl <;> cases refetches
  · obtain ⟨n, keeps⟩ := h.whole fresh boot m hm p hp hf
    rcases Download.Db.keeps_iff.mp keeps with stored | ⟨q, hq, _⟩
    · obtain ⟨row, hrow, _⟩ := Download.Db.has_iff.mp stored
      exact ⟨row, Table.find?_mem hrow, Table.find?_key_eq hrow⟩
    · exact (none_ q hq).elim

theorem mem_put (h : c' ∈ (s.put c).calls) : c' ∈ s.calls ∨ c' = c :=
  (Table.mem_replace.mp h).imp_left And.left

theorem mem_put_of_ne {d : Call} (h : d ∈ s.calls) (ne : d.id ≠ c.id) : d ∈ (s.put c).calls :=
  Table.mem_replace.mpr (.inl ⟨h, ne⟩)

theorem mem_put_self : c ∈ (s.put c).calls :=
  Table.mem_replace.mpr (.inr rfl)

-- A call goes on, and the queue and what is stored stay as good as they were.
theorem Inv.goes (h : s.Inv window found) (hc : c ∈ s.calls) (id : c'.id = c.id) (calls : u.calls = s.calls)
    (mail : u.mail = s.mail) (expired : u.expired = s.expired) (boot : u.db.bootstrapped = s.db.bootstrapped)
    (rows : s.expired = false → ∀ row ∈ u.db.messages,
      (∃ old ∈ s.db.messages, old.id = row.id) ∨ u.current row.id = true)
    (current : s.expired = false → ∀ id, s.current id = true → u.current id = true)
    (held : s.expired = false → ∀ m ∈ s.mail, s.held m.id → u.held m.id)
    (shape : Call.shaped window c'.prog = true) (fills : .setBootstrapped ∈ c'.prog → .setBootstrapped ∈ c.prog)
    (lists : s.expired = false → ∀ m ∈ s.mail, ∀ p refetch, found p m = true → c.lists p m.id refetch →
      c'.lists p m.id refetch ∨ u.held m.id ∧ (refetch = true → u.current m.id = true)) :
    (u.put c').Inv window found := by
  have new : c' ∈ (u.put c').calls := mem_put_self
  have other (d : Call) (hd : d ∈ s.calls) : d = c ∨ d ∈ (u.put c').calls := by
    by_cases eq : d.id = c.id
    · exact .inl (s.calls.eq_of_key_eq hd hc eq)
    · exact .inr (mem_put_of_ne (calls ▸ hd) (id ▸ eq))
  refine ⟨fun d hd => ?_, fun fresh row hrow => ?_, fun fresh on m hm p hp hf => ?_,
    fun fresh' d hd sets m hm' p hp hf => ?_⟩
  · rcases mem_put hd with old | rfl
    · exact h.shape d (calls ▸ old)
    · exact shape
  · have fresh : s.expired = false := expired.symm.trans fresh
    rcases rows fresh row hrow with ⟨old, ho, eq⟩ | now
    · rcases h.stale fresh old ho with now | ⟨d, hd, m, hm, eq', p, hf, left⟩
      · exact .inl (current fresh row.id (eq ▸ now))
      · rcases other d hd with rfl | mem
        · rcases lists fresh m hm p true hf left with left | ⟨_, now⟩
          · exact .inr ⟨c', new, m, mail ▸ hm, eq'.trans eq, p, hf, left⟩
          · exact .inl (eq ▸ eq' ▸ now rfl)
        · exact .inr ⟨d, mem, m, mail ▸ hm, eq'.trans eq, p, hf, left⟩
    · exact .inl now
  · have fresh : s.expired = false := expired.symm.trans fresh
    exact held fresh m (mail ▸ hm) (h.whole fresh (boot.symm.trans on) m (mail ▸ hm) p hp hf)
  · have fresh : s.expired = false := expired.symm.trans fresh'
    have hm : m ∈ s.mail := mail ▸ hm'
    rcases mem_put hd with old | rfl
    · exact (h.fills fresh d (calls ▸ old) sets m hm p hp hf).imp_left (held fresh m hm)
    · rcases h.fills fresh c hc (fills sets) m hm p hp hf with was | ⟨refetch, left⟩
      · exact .inl (held fresh m hm was)
      · rcases lists fresh m hm p refetch hf left with left | ⟨now, _⟩
        · exact .inr ⟨refetch, left⟩
        · exact .inl now

-- A call goes on behind an instruction that lists nothing, and nothing else changes.
theorem lists_tail {i : Instr} {prog : List Instr} {p : Phase} {id : String} {refetch : Bool} (e : c.prog = i :: prog)
    (none_ : i.lists = false) (h : c.lists p id refetch) : .phase p refetch ∈ prog := by
  rcases h with mem | ⟨head, _⟩
  · rcases List.mem_cons.mp (e ▸ mem) with rfl | mem
    · cases none_
    · exact mem
  · rw [e, List.head?_cons, Option.some.injEq] at head
    subst head
    cases none_

theorem Inv.tail {i : Instr} {prog : List Instr} (h : s.Inv window found) (hc : c ∈ s.calls) (e : c.prog = i :: prog)
    (none_ : i.lists = false) (id : c'.id = c.id) (prog' : c'.prog = prog) : (s.put c').Inv window found := by
  refine h.goes hc id rfl rfl rfl rfl (fun _ row hrow => .inl ⟨row, hrow, rfl⟩) (fun _ _ now => now) (fun _ _ _ was => was)
    (prog' ▸ Call.shaped_tail (e ▸ h.shape c hc)) (fun mem => e ▸ List.mem_cons_of_mem i (prog' ▸ mem)) ?_
  exact fun _ _ _ _ _ _ left => .inl (.inl (prog' ▸ lists_tail e none_ left))

-- The fresh cursor is stored.
theorem Inv.writeCursor {prog : List Instr} (h : s.Inv window found) (hc : c ∈ s.calls) (e : c.prog = .writeCursor :: prog)
    (id : c'.id = c.id) (prog' : c'.prog = prog) (ok : s.goesOn window found c = true) :
    (State.put { s with db := { s.db with bootstrapped := false }, expired := false } c').Inv window found := by
  have next := Bool.and_eq_true_iff.mp (e ▸ h.shape c hc : Call.shaped window (.writeCursor :: prog) = true)
  have eq : prog = listPhases window true ++ [.setBootstrapped] := of_decide_eq_true next.right
  simp only [goesOn, e, Bool.and_eq_true, List.all_eq_true] at ok
  obtain ⟨rows, alone⟩ := ok
  refine ⟨fun d hd => ?_, fun _ row hrow => ?_, (by rintro _ ⟨⟩), fun _ d hd sets m _ p hp _ => ?_⟩
  · rcases mem_put hd with old | rfl
    · exact h.shape d old
    · exact prog' ▸ Call.shaped_tail (e ▸ h.shape c hc)
  · rcases Bool.or_eq_true_iff.mp (rows row hrow) with now | listed
    · exact .inl now
    · obtain ⟨m, hm, any⟩ := (Option.any_eq_true _ _).mp listed
      obtain ⟨p, hp, hf⟩ := List.any_eq_true.mp any
      refine .inr ⟨c', mem_put_self, m, Table.find?_mem hm, Table.find?_key_eq hm, p, hf, ?_⟩
      exact Call.lists_listPhases (prog'.trans eq) hp
  · rcases Table.mem_replace.mp hd with ⟨old, ne⟩ | rfl
    · have same : d.id = c.id := by simpa [sets] using alone d old
      exact absurd (same.trans id.symm) ne
    · exact .inr ⟨true, Call.lists_listPhases (prog'.trans eq) hp⟩

theorem Inv.setBootstrapped (h : s.Inv window found) (hc : c ∈ s.calls) (e : c.prog = [.setBootstrapped])
    (id : c'.id = c.id) (prog : c'.prog = []) :
    (State.put { s with db := { s.db with bootstrapped := true } } c').Inv window found := by
  have other (d : Call) (hd : d ∈ s.calls) (ne : d ≠ c) : d ∈ (s.put c').calls :=
    mem_put_of_ne hd fun eq => ne (s.calls.eq_of_key_eq hd hc (eq.trans id))
  have none_ (p id refetch) : ¬c.lists p id refetch := by simp [Call.lists, e]
  refine ⟨fun d hd => ?_, fun fresh row hrow => ?_, fun fresh _ m hm p hp hf => ?_, fun fresh d hd sets m hm p hp hf => ?_⟩
  · rcases mem_put hd with old | rfl
    · exact h.shape d old
    · exact prog ▸ rfl
  · refine (h.stale fresh row hrow).imp_right ?_
    rintro ⟨d, hd, m, hm, eq, p, hf, left⟩
    refine ⟨d, other d hd ?_, m, hm, eq, p, hf, left⟩
    rintro rfl
    exact none_ _ _ _ left
  · rcases h.fills fresh c hc (by simp [e]) m hm p hp hf with was | ⟨_, left⟩
    · exact was
    · exact absurd left (none_ _ _ _)
  · rcases mem_put hd with old | rfl
    · exact h.fills fresh d old sets m hm p hp hf
    · simp [prog] at sets

theorem Inv.phase {p : Phase} {refetch : Bool} {prog : List Instr} (h : s.Inv window found) (hc : c ∈ s.calls)
    (e : c.prog = .phase p refetch :: prog) (id : c'.id = c.id) (prog' : c'.prog = .pages p refetch :: prog)
    (ids : c'.ids = (s.mail.rows.filter (found p ·)).map (·.id)) : (s.put c').Inv window found := by
  refine h.goes hc id rfl rfl rfl rfl (fun _ row hrow => .inl ⟨row, hrow, rfl⟩) (fun _ _ now => now) (fun _ _ _ was => was)
    ?_ ?_ ?_
  · have := Call.shaped_tail (e ▸ h.shape c hc)
    simpa [prog', Call.shaped] using this
  · exact fun mem => by simpa [prog', e] using mem
  · intro _ m hm p' refetch' hf left
    refine .inl ?_
    rcases left with mem | ⟨head, _⟩
    · rcases List.mem_cons.mp (e ▸ mem) with eq | mem
      · cases eq
        refine .inr ⟨by simp [prog'], ids ▸ ?_⟩
        exact List.mem_map.mpr ⟨m, List.mem_filter.mpr ⟨hm, hf⟩, rfl⟩
      · exact .inl (prog' ▸ List.mem_cons_of_mem _ mem)
    · simp [e] at head

theorem Inv.pages {p : Phase} {refetch : Bool} {prog : List Instr} {answer : Nat} (h : s.Inv window found) (hc : c ∈ s.calls)
    (e : c.prog = .pages p refetch :: prog) (id : c'.id = c.id) (ids : c'.ids = c.ids.drop answer)
    (prog' : c'.prog = if c.ids.drop answer = [] then prog else c.prog)
    (queue : u = { s with db := s.db.enqueue (queuePriority p c.headersFrom) (c.ids.take answer) refetch }) :
    (u.put c').Inv window found := by
  subst queue
  have sub (i) (hi : i ∈ c'.prog) : i ∈ c.prog := by
    rw [prog'] at hi
    split at hi
    · exact e ▸ List.mem_cons_of_mem _ hi
    · exact hi
  refine h.goes hc id rfl rfl rfl rfl (fun _ row hrow => .inl ⟨row, hrow, rfl⟩) ?_ ?_ ?_ (sub _) ?_
  · intro _ id now
    obtain ⟨m, hm, eq, good⟩ := current_iff.mp now
    refine current_iff.mpr ⟨m, hm, eq, good.imp_right ?_⟩
    rintro ⟨q, hq, rfl⟩
    obtain ⟨q', hq', eq', _⟩ := Download.Db.foldl_enqueueOne_keeps hq
    exact ⟨q', hq', eq'⟩
  · exact fun _ m _ ⟨n, keeps⟩ => ⟨n, Download.Db.keeps_enqueue keeps⟩
  · rw [prog']
    split
    · exact Call.shaped_tail (e ▸ h.shape c hc)
    · exact h.shape c hc
  · intro _ m hm p' refetch' _ left
    rcases left with mem | ⟨head, mem⟩
    · rcases List.mem_cons.mp (e ▸ mem) with eq | mem
      · cases eq
      · refine .inl (.inl ?_)
        rw [prog']
        split
        · exact mem
        · exact e ▸ List.mem_cons_of_mem _ mem
    · rw [e, List.head?_cons, Option.some.injEq] at head
      cases head
      rw [← List.take_append_drop answer c.ids, List.mem_append] at mem
      rcases mem with taken | left
      · refine .inr ⟨⟨_, Download.Db.keeps_enqueue_new taken⟩, ?_⟩
        rintro rfl
        exact current_iff.mpr ⟨m, hm, rfl, .inr (Download.Db.queued_enqueue taken)⟩
      · refine .inl (.inr ⟨?_, ids ▸ left⟩)
        rw [prog', if_neg (List.ne_nil_of_mem left), e]
        rfl

theorem mem_has {ids : List String} {m : Mail} : m ∈ s.has ids ↔ m ∈ s.mail ∧ m.id ∈ ids := by
  rw [State.has, List.mem_filter, decide_eq_true_eq]
  rfl

-- What is stored of a message that a batch does not have stays, and what it has is as it is on the server.
theorem labels_storeFetched {full : Bool} {ids : List String} {m : Mail} (hm : m ∈ s.mail)
    (h : m.id ∈ ids ∨ s.labels m.id = m.labels) : (s.storeFetched full ids (s.has ids)).labels m.id = m.labels := by
  simp only [storeFetched]
  cases e : (s.has ids).find? (·.id = m.id)
  case none =>
    have out : m.id ∉ ids := fun mem => by simpa using List.find?_eq_none.mp e m (mem_has.mpr ⟨hm, mem⟩)
    simpa using h.resolve_left out
  case some m' =>
    have mem := (mem_has.mp (List.mem_of_find?_eq_some e)).left
    have same : m' = m := s.mail.eq_of_key_eq mem hm (by simpa using List.find?_some e)
    simp [same]

theorem Inv.store {full : Bool} (h : s.Inv window found) (hc : c ∈ s.calls) (e : c.prog = [.store full])
    (id : c'.id = c.id) (prog : c'.prog = []) (ok : s.goesOn window found c = true) :
    ((s.storeFetched full c.ids c.fetched).put c').Inv window found := by
  have now (fresh : s.expired = false) : c.fetched = s.has c.ids := by simpa [goesOn, e, fresh] using ok
  have messages : (s.storeFetched full c.ids c.fetched).db.messages =
      (s.db.store full (c.fetched.map (·.id))).messages := by cases full <;> rfl
  have kept {q : Download.Queued} (hq : q ∈ s.db.queue) (out : q.id ∉ c.ids) :
      q ∈ (s.storeFetched full c.ids c.fetched).db.queue := by
    cases full <;> exact Table.mem_delete.mpr ⟨hq, by simp [out]⟩
  refine h.goes hc id rfl rfl rfl (by cases full <;> rfl) ?_ ?_ ?_ (prog ▸ rfl) (fun mem => by simp [prog] at mem)
    fun _ _ _ _ _ _ left => by simp [Call.lists, e] at left
  · intro fresh row hrow
    rw [messages] at hrow
    refine (Download.Db.mem_store hrow).imp_right fun mem => ?_
    rw [now fresh] at mem ⊢
    obtain ⟨m, hm, eq⟩ := List.mem_map.mp mem
    obtain ⟨hm, mem⟩ := mem_has.mp hm
    exact current_iff.mpr ⟨m, hm, eq, .inl (eq ▸ labels_storeFetched hm (.inl mem))⟩
  · intro fresh id was
    obtain ⟨m, hm, rfl, good⟩ := current_iff.mp was
    refine current_iff.mpr ⟨m, hm, rfl, ?_⟩
    by_cases mem : m.id ∈ c.ids
    case pos => exact .inl (now fresh ▸ labels_storeFetched hm (.inl mem))
    case neg =>
      refine good.imp (fun same => now fresh ▸ labels_storeFetched hm (.inr same)) ?_
      rintro ⟨q, hq, eq⟩
      exact ⟨q, kept hq (eq ▸ mem), eq⟩
  · intro fresh m hm ⟨n, keeps⟩
    have stored (h : (s.db.store full (c.fetched.map (·.id))).has HEADERS_ONLY m.id = true) :
        (s.storeFetched full c.ids c.fetched).held m.id := by
      refine ⟨HEADERS_ONLY, Download.Db.keeps_iff.mpr (.inl ?_)⟩
      simpa only [Download.Db.has, messages] using h
    by_cases mem : m.id ∈ c.ids
    case pos =>
      refine stored (Download.Db.has_store_new ?_ (.inl le_rfl))
      rw [now fresh]
      exact List.mem_map.mpr ⟨m, mem_has.mpr ⟨hm, mem⟩, rfl⟩
    case neg =>
      rcases Download.Db.keeps_iff.mp keeps with was | ⟨q, hq, eq, le⟩
      · refine stored (Download.Db.has_store ?_)
        obtain ⟨row, hrow, _⟩ := Download.Db.has_iff.mp was
        exact Download.Db.has_iff.mpr ⟨row, hrow, .inl le_rfl⟩
      · exact ⟨n, Download.Db.keeps_iff.mpr (.inr ⟨q, kept hq (eq ▸ mem), eq, le⟩)⟩

-- Calls end that have nothing to fetch anew, or else what changed has been queued.
theorem Inv.ends (h : s.Inv window found) (db : t.db = s.db) (labels : t.labels = s.labels) (mail : t.mail = s.mail)
    (calls : ∀ d ∈ t.calls, d ∈ s.calls) (fresh : t.expired = false → s.expired = false)
    (gone : t.expired = false → (∀ d ∈ s.calls, d ∉ t.calls → d.refetches = false) ∨
      ∀ row ∈ s.db.messages, s.current row.id = true) : t.Inv window found := by
  have same (id : String) : t.current id = s.current id := by rw [current, current, db, labels, mail]
  have held (id : String) : t.held id ↔ s.held id := by rw [State.held, State.held, db]
  refine ⟨fun d hd => h.shape d (calls d hd), fun on row hrow => ?_, fun on boot m hm p hp hf => ?_,
    fun on d hd sets m hm p hp hf => ?_⟩
  · rw [same]
    rcases gone on with none_ | all
    · refine (h.stale (fresh on) row (db ▸ hrow)).imp_right ?_
      rintro ⟨d, hd, m, hm, eq, p, hf, left⟩
      by_cases mem : d ∈ t.calls
      case pos => exact ⟨d, mem, m, mail ▸ hm, eq, p, hf, left⟩
      case neg => exact nomatch (none_ d hd mem).symm.trans (Call.refetches_of_lists left)
    · exact .inl (all row (db ▸ hrow))
  · exact (held _).mpr (h.whole (fresh on) (db ▸ boot) m (mail ▸ hm) p hp hf)
  · exact (h.fills (fresh on) d (calls d hd) sets m (mail ▸ hm) p hp hf).imp_left (held _).mpr

theorem Inv.begin {prog : List Instr} {headersFrom : Option Nat} {ids : List String} (h : s.Inv window found)
    (shape : Call.shaped window prog = true)
    (fills : .setBootstrapped ∈ prog → ∃ refetch, ∀ p ∈ phasesFor window, .phase p refetch ∈ prog) :
    (s.begin prog headersFrom ids).Inv window found := by
  have old (d : Call) (hd : d ∈ s.calls) : d ∈ (s.begin prog headersFrom ids).calls := by
    simp only [State.begin, Table.mem_insertRow]
    exact .inl hd
  refine ⟨fun d hd => ?_, fun fresh row hrow => ?_, h.whole, fun fresh d hd sets m hm p hp hf => ?_⟩
  · simp only [State.begin, Table.mem_insertRow] at hd
    rcases hd with old | rfl
    · exact h.shape d old
    · exact shape
  · exact (h.stale fresh row hrow).imp_right fun ⟨d, hd, rest⟩ => ⟨d, old d hd, rest⟩
  · simp only [State.begin, Table.mem_insertRow] at hd
    rcases hd with old | rfl
    · exact h.fills fresh d old sets m hm p hp hf
    · obtain ⟨refetch, all⟩ := fills sets
      exact .inr ⟨refetch, .inl (all p hp)⟩

theorem Inv.exec {answer : Nat} (h : s.Inv window found) (hc : c ∈ s.calls) (ok : s.goesOn window found c = true) :
    (s.exec found c answer).Inv window found := by
  have shape := h.shape c hc
  cases e : c.prog
  case nil =>
    simp only [State.exec, e]
    refine h.ends rfl rfl rfl (fun _ hd => (Table.mem_delete.mp hd).left) (fun fresh => fresh) fun _ => .inl ?_
    intro d hd gone
    have eq : d.id = c.id := by simpa [State.drop, hd] using gone
    cases s.calls.eq_of_key_eq hd hc eq
    simp [Call.refetches, e]
  case cons i prog =>
    have next := Bool.and_eq_true_iff.mp (e ▸ shape : Call.shaped window (i :: prog) = true)
    cases i <;> simp only [State.exec, e]
    case writeCursor => exact h.writeCursor hc e rfl rfl ok
    case phase p refetch => exact h.phase hc e rfl rfl rfl
    case pages p refetch => exact h.pages hc e rfl rfl (by simp only [e]) rfl
    case setBootstrapped =>
      obtain rfl : prog = [] := of_decide_eq_true next.right
      exact h.setBootstrapped hc e rfl rfl
    case fetch => exact h.tail hc e rfl rfl rfl
    case store full =>
      obtain rfl : prog = [] := of_decide_eq_true next.right
      exact h.store hc e rfl rfl ok

theorem Inv.step {a : Action} (h : s.Inv window found) (ok : s.cond window found a = true)
    (hs : s.step window found a = some s') : s'.Inv window found := by
  have lists (refetch : Bool) (p) (hp : p ∈ phasesFor window) : .phase p refetch ∈ listPhases window refetch :=
    List.mem_map_of_mem hp
  cases a <;> simp only [State.step] at hs
  case startResync =>
    split at hs
    case isFalse => cases hs
    case isTrue  =>
      injection hs with hs
      subst hs
      refine h.begin ?_ fun _ => ⟨true, fun p hp => ?_⟩
      · exact Bool.and_eq_true_iff.mpr ⟨Call.shaped_listPhases, decide_eq_true rfl⟩
      · exact List.mem_cons_of_mem _ (List.mem_append_left _ (lists true p hp))
  case bootstrap =>
    injection hs with hs
    subst hs
    exact h.begin Call.shaped_listPhases fun _ => ⟨false, fun p hp => List.mem_append_left _ (lists false p hp)⟩
  case backfillBatch | headersPass =>
    split at hs
    case isFalse => cases hs
    case isTrue  =>
      injection hs with hs
      subst hs
      exact h.begin rfl fun sets => by simp at sets
  case goOn call answer =>
    obtain ⟨c, hc, rfl⟩ := Option.map_eq_some_iff.mp hs
    refine h.exec (Table.find?_mem hc) ?_
    simpa [cond, hc] using ok
  case fail call =>
    obtain ⟨c, hc, rfl⟩ := Option.map_eq_some_iff.mp hs
    refine h.ends rfl rfl rfl (fun _ hd => (Table.mem_delete.mp hd).left) (fun fresh => fresh) fun fresh => ?_
    have fresh : s.expired = false := fresh
    simp only [cond, fresh, hc, Option.any_some, Bool.false_or, Bool.or_eq_true, Bool.not_eq_true'] at ok
    refine ok.imp (fun none_ d hd gone => ?_) fun all row hrow => List.all_eq_true.mp all row hrow
    have eq : d.id = c.id := by simpa [State.drop, hd] using gone
    cases s.calls.eq_of_key_eq hd (Table.find?_mem hc) eq
    exact none_
  case restart =>
    injection hs with hs
    subst hs
    refine h.ends rfl rfl rfl (by simp) (fun fresh => fresh) fun fresh => ?_
    have fresh : s.expired = false := fresh
    simp only [cond, fresh, Bool.false_or, Bool.or_eq_true, Bool.not_eq_true'] at ok
    refine ok.imp (fun none_ d hd _ => ?_) fun all row hrow => List.all_eq_true.mp all row hrow
    simpa using List.any_eq_false.mp none_ d hd
  case expire =>
    injection hs with hs
    subst hs
    exact ⟨h.shape, (by rintro ⟨⟩), (by rintro ⟨⟩), (by rintro ⟨⟩)⟩
  case changed =>
    split at hs
    case isFalse => cases hs
    case isTrue expired =>
      injection hs with hs
      subst hs
      refine ⟨h.shape, fun fresh => ?_, fun fresh => ?_, fun fresh => ?_⟩
      all_goals cases expired.symm.trans fresh

-- In every run all of whose steps meet the condition, the resync catches up.
theorem reachable_catchesUp {s : State}
    (h : (resyncs window found).Reachable (fun s a => s.cond window found a = true) s) : s.CatchesUp window found := by
  have inv : s.Inv window found := by
    refine h.invariant (fun s start => ?_) fun s a s' inv ok hs => inv.step ok hs
    obtain ⟨calls, expired⟩ := start
    refine ⟨fun c hc => by simp [calls] at hc, fun fresh => ?_, fun fresh => ?_, fun fresh => ?_⟩
    all_goals exact nomatch expired.symm.trans fresh
  exact inv.catchesUp

end State

section Examples

def ofMonth (phase : Phase) (mail : Mail) : Bool :=
  phase.query = some "newer_than:30d" ∧ mail.age ≤ 30

def onServer (rows : List Mail) : Table Mail Mail.id :=
  rows.foldl Table.replace ∅

-- Two messages are stored: one of the month, and an old one.
def outOfDate : State where
  db      := { bootstrapped := true, messages := ((∅ : Table Download.Stored Download.Stored.id).replace
    { id := "new", full := true }).replace { id := "old", full := true } }
  labels  := fun _ => ["INBOX"]
  mail    := onServer [{ id := "new", labels := ["INBOX"], age := 3 }, { id := "old", labels := ["INBOX"], age := 900 }]
  expired := true

-- The message of the month is relabelled, and another one has come.
def relabelled : List Mail :=
  [{ id := "new", labels := ["INBOX", "STARRED"], age := 3 }, { id := "old", labels := ["INBOX"], age := 900 },
   { id := "next", labels := ["INBOX"], age := 1 }]

def goOn (call times : Nat) : List Action :=
  List.replicate times (.goOn call 9)

def resync : List Action :=
  [.startResync none] ++ goOn 1 13

def backfill (ids : List String) : List Action :=
  [.backfillBatch ids] ++ goOn 1 3

-- A resync is broken off when it has listed what changed.
theorem reachable_catchesUp_relabelled : ∃ s : State, s.CatchesUp .month ofMonth ∧ s.db.bootstrapped = true ∧
    s.db.queue.rows = [] ∧ s.labels "new" = ["INBOX", "STARRED"] ∧ s.db.has 0 "next" = true := by
  have run : ((resyncs .month ofMonth).run (fun s a => s.cond .month ofMonth a = true) outOfDate
      ([.changed (onServer relabelled), .startResync none] ++ goOn 1 8 ++ [.restart] ++ backfill ["new"] ++
        [.bootstrap none] ++ goOn 1 12 ++ backfill ["next"])).any fun s =>
          s.db.bootstrapped = true ∧ s.db.queue.rows = [] ∧ s.labels "new" = ["INBOX", "STARRED"] ∧
            s.db.has 0 "next" = true := by decide
  obtain ⟨s, hs, ends⟩ := (Option.any_eq_true _ _).mp run
  exact ⟨s, State.reachable_catchesUp (.run (.start ⟨rfl, rfl⟩) hs), of_decide_eq_true ends⟩

-- Runs after which a stored message is not as it is on the server.
def Misses (as : List Action) : Prop :=
  ∃ s, (resyncs .month ofMonth).run (fun _ _ => True) outOfDate as = some s ∧
    (resyncs .month ofMonth).Reachable (fun _ _ => True) s ∧ ¬s.CatchesUp .month ofMonth

theorem misses {as : List Action}
    (h : ((resyncs .month ofMonth).run (fun _ _ => True) outOfDate as).any (fun s =>
      s.db.bootstrapped = true ∧ s.db.queue.rows = [] ∧ s.expired = false ∧ s.quiet = true ∧
        ∃ row ∈ s.db.messages.rows, ∀ m ∈ s.mail.rows, m.id = row.id → s.labels row.id ≠ m.labels) = true) : Misses as := by
  obtain ⟨s, hs, stale⟩ := (Option.any_eq_true _ _).mp h
  obtain ⟨boot, empty, fresh, quiet, row, hrow, differs⟩ := of_decide_eq_true stale
  refine ⟨s, hs, .run (.start ⟨rfl, rfl⟩) hs, fun caught => ?_⟩
  obtain ⟨m, hm, eq, same⟩ := (caught boot empty fresh quiet).exact row hrow
  exact differs m hm eq same

-- The old message is deleted, or relabelled outside the window. Or the one of the month is relabelled, and the program
-- ends when the fresh cursor is stored and nothing is listed.
theorem out_of_date :
    Misses ([.changed (onServer (relabelled.filter (·.id ≠ "old")))] ++ resync ++ backfill ["new", "next"]) ∧
    Misses ([.changed (onServer [{ id := "old", labels := ["SENT"], age := 900 },
      { id := "new", labels := ["INBOX"], age := 3 }])] ++ resync ++ backfill ["new"]) ∧
    Misses ([.changed (onServer relabelled), .startResync none] ++ goOn 1 1 ++ [.restart, .bootstrap none] ++ goOn 1 12 ++
      backfill ["next"]) :=
  ⟨misses (by decide), misses (by decide), misses (by decide)⟩

end Examples

end Kaluta.Resync
