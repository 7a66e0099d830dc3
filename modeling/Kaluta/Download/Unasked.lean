import Kaluta.Download.Engine

-- What Clean Up queued for headers does not come whole unless the user asks, and when.
namespace Kaluta.Download

variable {found : Phase → Mail → Bool} {s s' t : State} {c : Call}

namespace State

variable (found) (s)

-- A backfill batch has none of what Clean Up queued, unless the user asked since or the message changed.
def Unasked : Prop :=
  ∀ ids s', s.step found (.backfillBatch ids) = some s' → ∀ id ∈ ids, id ∉ s.mine

-- Whether the body window reaches further than the sync window.
def reaches : Bool :=
  let window := s.db.window.getD .halfYear
  (phasesFor .everything).any fun phase => phase ∉ phasesFor window ∧
    queuePriority phase ((s.db.bodyWindow.getD .month).keptFrom window).headersFrom < HEADERS_ONLY

-- A caller that expects cheap headers finds a body window that reaches no further than the sync window. While Clean
-- Up's tier is its own, a page of a phase that gets headers only is queued so, and none of it is promoted.
def goesOn (c : Call) : Bool :=
  match c.prog with
  | .widen true :: _    => !c.cheap || !s.reaches
  | .pages phase _ :: _ => s.inside.isNone || s.tiered phase < HEADERS_ONLY ||
    queuePriority phase c.headersFrom ≥ HEADERS_ONLY
  | .promote :: _       => s.mine.all fun id => (s.db.queue.find? id).isNone
  | _                   => true

def cond : Action → Bool
  | .loadEveryHeaderStored cheap true => !cheap || !s.reaches
  | .goOn call _                      => (s.calls.find? call).all s.goesOn
  | _                                 => true

-- The body window and the queue keep what Clean Up queued apart.
structure Core : Prop where
  body  : s.inside.isSome = true → s.db.bodyWindow.getD .month ≠ .window
  tiers : ∀ ps, s.inside = some ps → ∀ p ∈ phasesFor .everything, p ∉ ps → HEADERS_ONLY ≤ s.tiered p
  mine  : ∀ id ∈ s.mine, s.inside.isSome = true ∧ id ∉ s.asked ∧
    (∀ m, s.mail.find? id = some m → ∀ p ∈ phasesFor .everything, found p m = true → HEADERS_ONLY ≤ s.tiered p) ∧
    ∀ q ∈ s.db.queue, q.id = id → HEADERS_ONLY ≤ q.priority

-- A call lists phases, page after page, and what it lists is there but for what changed since.
structure Listed (c : Call) : Prop where
  phases : ∀ i ∈ c.prog, ∀ p, i.lists = some p → p ∈ phasesFor .everything
  rest   : ∀ i ∈ c.prog.tail, ∀ p r, i ≠ .pages p r
  ids    : ∀ p r, c.prog.head? = some (.pages p r) → ∀ id ∈ c.ids, id ∉ s.asked →
    ∃ m, s.mail.find? id = some m ∧ found p m = true

structure Inv : Prop where
  core   : s.Core found
  listed : ∀ c ∈ s.calls, s.Listed found c

variable {found} {s}

theorem Inv.unasked (h : s.Inv found) : s.Unasked found := by
  intro ids s' hs id mem mine
  obtain ⟨_, _, _, queued⟩ := h.core.mine id mine
  simp only [step] at hs
  split at hs
  case isFalse => cases hs
  case isTrue all =>
    obtain ⟨q, found, less⟩ := (Option.any_eq_true _ _).mp (List.all_eq_true.mp all id mem)
    have := queued q (Table.find?_mem found) (Table.find?_key_eq found)
    have := of_decide_eq_true less
    omega

theorem tiered_congr (body : t.db.bodyWindow = s.db.bodyWindow) (p : Phase) : t.tiered p = s.tiered p := by
  rw [tiered, tiered, body]

-- A queue that only loses rows, or gets none that is Clean Up's.
theorem Core.of_queue (h : s.Core found) (body : t.db.bodyWindow = s.db.bodyWindow) (inside : t.inside = s.inside)
    (mine : ∀ id ∈ t.mine, id ∈ s.mine) (asked : t.asked = s.asked) (mail : t.mail = s.mail)
    (queue : ∀ q ∈ t.db.queue, q ∈ s.db.queue ∨ q.id ∉ s.mine) : t.Core found where
  body  := by rw [inside, body]; exact h.body
  tiers := fun ps e p hp out => tiered_congr body p ▸ h.tiers ps (inside ▸ e) p hp out
  mine  := by
    intro id mem
    obtain ⟨isSome, fresh, tiers, queued⟩ := h.mine id (mine id mem)
    refine ⟨inside ▸ isSome, asked ▸ fresh, ?_, fun q hq eq => ?_⟩
    · exact fun m hm p hp hf => tiered_congr body p ▸ tiers m (mail ▸ hm) p hp hf
    · rcases queue q hq with old | other
      · exact queued q old eq
      · exact absurd (mine id mem) (eq ▸ other)

theorem Core.of_same (h : s.Core found) (body : t.db.bodyWindow = s.db.bodyWindow) (inside : t.inside = s.inside)
    (mine : t.mine = s.mine) (asked : t.asked = s.asked) (mail : t.mail = s.mail) (queue : t.db.queue = s.db.queue) :
    t.Core found :=
  h.of_queue body inside (fun _ mem => mine ▸ mem) asked mail fun _ hq => .inl (queue ▸ hq)

-- Nothing is Clean Up's once the user asks.
theorem Core.of_none (inside : t.inside = none) (mine : t.mine = []) : t.Core found where
  body  := by simp [inside]
  tiers := by simp [inside]
  mine  := by simp [mine]

theorem Core.mine_eq_nil (h : s.Core found) (inside : s.inside = none) : s.mine = [] :=
  List.eq_nil_iff_forall_not_mem.mpr fun id mem => by simpa [inside] using (h.mine id mem).left

-- What is asked for leaves what is Clean Up's.
theorem Core.without {ids : List String} (h : s.Core found) (body : t.db.bodyWindow = s.db.bodyWindow)
    (inside : t.inside = s.inside) (mine : t.mine = s.mine) (asked : t.asked = s.asked)
    (mail : ∀ id, id ∉ ids → t.mail.find? id = s.mail.find? id)
    (queue : ∀ q ∈ t.db.queue, q ∈ s.db.queue ∨ q.id ∈ ids) : (t.without ids).Core found where
  body  := by simpa only [State.without, inside, body] using h.body
  tiers := fun ps e p hp out => (tiered_congr body p : (t.without ids).tiered p = _) ▸ h.tiers ps (inside ▸ e) p hp out
  mine  := by
    intro id mem
    simp only [State.without, mine, List.mem_filter, decide_eq_true_eq] at mem
    obtain ⟨mem, other⟩ := mem
    obtain ⟨isSome, fresh, tiers, queued⟩ := h.mine id mem
    refine ⟨inside ▸ isSome, ?_, ?_, ?_⟩
    · simp only [State.without, asked, List.mem_append, not_or]
      exact ⟨other, fresh⟩
    · intro m hm p hp hf
      exact (tiered_congr body p : (t.without ids).tiered p = _) ▸ tiers m (mail id other ▸ hm) p hp hf
    · intro q hq eq
      rcases queue q hq with old | new
      · exact queued q old eq
      · exact absurd (eq ▸ new) other

theorem getD_kept {body : Option BodyWindow} {kept : BodyWindow} :
    (if kept ≠ body.getD .month then some kept else body).getD .month = kept := by
  split
  case isTrue     => rfl
  case isFalse eq => exact (not_not.mp eq).symm

-- Clean Up widens the window where its tier gets headers only beyond what was in the window. If it did before, bodies
-- stay where they were.
theorem Core.widened {cheap expectCheap : Bool} (h : s.Core found) (hs : s.widenStored cheap expectCheap = some t)
    (ok : expectCheap = true → cheap = true → s.reaches = false) : t.Core found := by
  simp only [widenStored] at hs
  split at hs
  case isTrue => cases hs
  case isFalse narrow =>
    have wider := (not_or.mp narrow).left
    injection hs with hs
    subst hs
    cases cheap
    case false => exact .of_none rfl rfl
    case true =>
      have kept (isSome : s.inside.isSome = true) :
          (s.db.bodyWindow.getD .month).keptFrom (s.db.window.getD .halfYear) = s.db.bodyWindow.getD .month :=
        BodyWindow.keptFrom_of_ne (h.body isSome)
      refine ⟨fun _ => ?_, ?_, ?_⟩
      · simpa only [getD_kept, if_true] using BodyWindow.keptFrom_ne wider
      · intro ps e p hp out
        cases e
        have tier : queuePriority p ((s.db.bodyWindow.getD .month).keptFrom (s.db.window.getD .halfYear)).headersFrom ≥
            HEADERS_ONLY := by
          simp only [insideOf, List.mem_append, not_or] at out
          cases expectCheap
          case false => simpa [hp] using out.right
          case true  => simpa [reaches, hp, out.left] using List.any_eq_false.mp (ok rfl rfl) p hp
        simpa only [tiered, getD_kept, if_true] using tier
      · intro id mem
        obtain ⟨isSome, fresh, tiers, queued⟩ := h.mine id mem
        refine ⟨rfl, fresh, fun m hm p hp hf => ?_, queued⟩
        simpa only [tiered, getD_kept, if_true, kept isSome] using tiers m hm p hp hf

-- Whatever a listing lists of Clean Up's gets headers only.
theorem Listed.priority {p : Phase} {r : Bool} {prog : List Instr} {id : String} (h : s.Listed found c)
    (ok : s.goesOn c = true) (e : c.prog = .pages p r :: prog) (isSome : s.inside.isSome = true) (mem : id ∈ c.ids)
    (fresh : id ∉ s.asked)
    (tiers : ∀ m, s.mail.find? id = some m → ∀ p ∈ phasesFor .everything, found p m = true → HEADERS_ONLY ≤ s.tiered p) :
    HEADERS_ONLY ≤ queuePriority p c.headersFrom := by
  obtain ⟨m, hm, hf⟩ := h.ids p r (by simp [e]) id mem fresh
  have := tiers m hm p (h.phases _ (e ▸ List.mem_cons_self) p rfl) hf
  simp only [goesOn, e, Option.isNone_eq_false_iff.mpr isSome, Bool.false_or, Bool.or_eq_true, decide_eq_true_eq] at ok
  omega

theorem Core.enqueuePage {p : Phase} {r : Bool} {prog : List Instr} {page : List String} (h : s.Core found)
    (hl : s.Listed found c) (ok : s.goesOn c = true) (e : c.prog = .pages p r :: prog) (sub : ∀ id ∈ page, id ∈ c.ids) :
    (s.enqueuePage found c p r page).Core found := by
  cases inside : s.inside
  case none => exact .of_none inside (by simp [State.enqueuePage, inside, h.mine_eq_nil inside])
  case some ps =>
    have isSome : s.inside.isSome = true := by simp [inside]
    refine ⟨h.body, h.tiers, fun id mem => ?_⟩
    have kept (fresh : id ∉ s.asked)
        (tiers : ∀ m, s.mail.find? id = some m → ∀ p ∈ phasesFor .everything, found p m = true → HEADERS_ONLY ≤ s.tiered p)
        (old : ∀ q ∈ s.db.queue, q.id = id → HEADERS_ONLY ≤ q.priority) :
        ∀ q ∈ (s.enqueuePage found c p r page).db.queue, q.id = id → HEADERS_ONLY ≤ q.priority := by
      intro q hq eq
      rcases s.db.mem_enqueue hq with was | ⟨mem, e'⟩
      · exact old q was eq
      · rw [e']
        exact hl.priority ok e isSome (sub id (eq ▸ mem)) fresh tiers
    simp only [State.enqueuePage, inside, List.mem_append, List.mem_filter] at mem
    rcases mem with was | ⟨_, new⟩
    · obtain ⟨_, fresh, tiers, queued⟩ := h.mine id was
      exact ⟨isSome, fresh, tiers, kept fresh tiers queued⟩
    · simp only [Bool.and_eq_true, decide_eq_true_eq, Option.isNone_iff_eq_none] at new
      obtain ⟨⟨⟨gone, _, fresh⟩, own⟩, _⟩ := new
      have tiers : ∀ m, s.mail.find? id = some m → ∀ p ∈ phasesFor .everything, found p m = true →
          HEADERS_ONLY ≤ s.tiered p := by
        refine fun m hm p hp hf => h.tiers ps inside p hp fun mem => ?_
        simpa [hf] using List.all_eq_true.mp (Option.all_eq_true _ _ |>.mp own m hm) p mem
      have old : ∀ q ∈ s.db.queue, q.id = id → HEADERS_ONLY ≤ q.priority := fun q hq eq =>
        absurd eq (Table.find?_eq_none_iff.mp gone q hq)
      exact ⟨isSome, fresh, tiers, kept fresh tiers old⟩

theorem Listed.of_same (h : s.Listed found c) (asked : ∀ id, id ∉ t.asked → id ∉ s.asked)
    (mail : ∀ id, id ∉ t.asked → t.mail.find? id = s.mail.find? id) : t.Listed found c where
  phases := h.phases
  rest   := h.rest
  ids    := fun p r e id mem fresh => mail id fresh ▸ h.ids p r e id mem (asked id fresh)

-- A call that goes on with the rest of its program, or with phases to list.
theorem Listed.goes {c' : Call} (h : s.Listed found c) (prog : ∀ i ∈ c'.prog, i ∈ c.prog.tail ∨
    (∀ p r, i ≠ .pages p r) ∧ ∀ p, i.lists = some p → p ∈ phasesFor .everything) : t.Listed found c' := by
  have no : ∀ i ∈ c'.prog, ∀ p r, i ≠ .pages p r := by
    intro i hi
    rcases prog i hi with mem | ⟨new, _⟩
    · exact h.rest i mem
    · exact new
  refine ⟨?_, fun i hi => no i (List.mem_of_mem_tail hi), fun p r e => absurd rfl (no _ (List.mem_of_mem_head? e) p r)⟩
  intro i hi
  rcases prog i hi with mem | ⟨_, new⟩
  · exact h.phases i (List.mem_of_mem_tail mem)
  · exact new

-- A call that begins, and lists nothing yet.
theorem Listed.begins (prog : c.prog.all (·.lists.isNone) = true) : s.Listed found c := by
  have no : ∀ i ∈ c.prog, i.lists = none := fun i hi => Option.isNone_iff_eq_none.mp (List.all_eq_true.mp prog i hi)
  refine ⟨?_, ?_, ?_⟩
  · exact fun i hi p e => nomatch (no i hi).symm.trans e
  · exact fun i hi p r e => nomatch e ▸ no i (List.mem_of_mem_tail hi)
  · exact fun p r e => nomatch no _ (List.mem_of_mem_head? e)

theorem widenStored_same {cheap expectCheap : Bool} (hs : s.widenStored cheap expectCheap = some t) :
    t.asked = s.asked ∧ t.mail = s.mail ∧ t.calls = s.calls := by
  simp only [widenStored] at hs
  split at hs
  case isTrue  => cases hs
  case isFalse =>
    injection hs with hs
    subst hs
    exact ⟨rfl, rfl, rfl⟩

theorem exec_same {answer : Nat} :
    (s.exec found c answer).asked = s.asked ∧ (s.exec found c answer).mail = s.mail := by
  cases e : c.prog
  case nil =>
    simp only [exec, e]
    exact ⟨rfl, rfl⟩
  case cons i prog =>
    cases i <;> simp only [exec, e]
    case widen expectCheap =>
      split
      case h_1 hs => exact ⟨(widenStored_same hs).left, (widenStored_same hs).right.left⟩
      case h_2    => exact ⟨rfl, rfl⟩
    case clear | fetchHeaders => split <;> exact ⟨rfl, rfl⟩
    all_goals exact ⟨rfl, rfl⟩

theorem Core.exec {answer : Nat} (h : s.Core found) (hl : s.Listed found c) (ok : s.goesOn c = true) :
    (s.exec found c answer).Core found := by
  have deletes {p : Queued → Bool} {t : State} (e : t.db.queue = s.db.queue.delete p) :
      ∀ q ∈ t.db.queue, q ∈ s.db.queue ∨ q.id ∉ s.mine :=
    fun q hq => .inl (Table.mem_delete.mp (e ▸ hq)).left
  cases e : c.prog
  case nil =>
    simp only [State.exec, e]
    exact h.of_same rfl rfl rfl rfl rfl rfl
  case cons i prog =>
    cases i <;> simp only [State.exec, e]
    case setWindow => exact .of_none rfl rfl
    case setBodyWindow => exact .of_none rfl rfl
    case widen expectCheap =>
      split
      case h_1 hs =>
        refine (h.widened hs fun expects cheap => ?_).of_same rfl rfl rfl rfl rfl rfl
        subst expects
        simpa [goesOn, e, cheap] using ok
      case h_2 => exact h.of_same rfl rfl rfl rfl rfl rfl
    case clear =>
      split <;> exact h.of_queue rfl rfl (fun _ mem => mem) rfl rfl (deletes rfl)
    case pages p r =>
      refine (h.enqueuePage hl ok e ?_).of_same rfl rfl rfl rfl rfl rfl
      exact fun id mem => List.mem_of_mem_take mem
    case store => exact h.of_queue rfl rfl (fun _ mem => mem) rfl rfl (deletes rfl)
    case fetchHeaders =>
      split
      · exact h.of_queue rfl rfl (fun _ mem => mem) rfl rfl (deletes rfl)
      · exact h.of_same rfl rfl rfl rfl rfl rfl
    case promote =>
      refine h.of_queue rfl rfl (fun _ mem => mem) rfl rfl fun q hq => ?_
      rcases s.db.mem_promoteHeadersOnly hq with old | ⟨old, ho, eq⟩
      · exact .inl old
      · refine .inr fun mem => ?_
        simp only [goesOn, e, List.all_eq_true, Option.isNone_iff_eq_none] at ok
        exact Table.find?_eq_none_iff.mp (ok _ mem) old ho eq
    all_goals exact h.of_same rfl rfl rfl rfl rfl rfl

theorem Listed.exec {answer : Nat} {c' : Call} (h : s.Listed found c) (hc : c' ∈ (s.exec found c answer).calls) :
    c' ∈ s.calls ∨ (s.exec found c answer).Listed found c' := by
  generalize ht : s.exec found c answer = t at hc
  have goes {u : State} {d : Call} (e : u.put d = t) (calls : u.calls = s.calls) (prog : ∀ i ∈ d.prog, i ∈ c.prog.tail ∨
      (∀ p r, i ≠ .pages p r) ∧ ∀ p, i.lists = some p → p ∈ phasesFor .everything) :
      c' ∈ s.calls ∨ t.Listed found c' := by
    rcases mem_put (e ▸ hc) with old | rfl
    · exact .inl (calls ▸ old)
    · exact .inr (h.goes prog)
  cases e : c.prog
  case nil =>
    simp only [State.exec, e] at ht
    exact .inl (Table.mem_delete.mp (ht ▸ hc)).left
  case cons i prog =>
    cases i <;> simp only [State.exec, e] at ht
    case widen =>
      split at ht
      case h_1 hs => exact goes ht (widenStored_same hs).right.right fun i hi => .inl (by simpa [e] using hi)
      case h_2    => exact goes ht rfl (by simp)
    case clear =>
      split at ht
      · exact goes ht rfl fun i hi => .inl (by simpa [e] using hi)
      · exact goes ht rfl fun i hi => .inl (by simpa [e] using List.mem_of_mem_filter hi)
    case compare =>
      refine goes ht rfl fun i hi => ?_
      split at hi
      · cases List.mem_singleton.mp hi
        exact .inr ⟨(by simp), (by rintro _ ⟨⟩)⟩
      · exact .inl (by simpa [e] using hi)
    case list part r =>
      refine goes ht rfl fun i hi => ?_
      rcases List.mem_append.mp hi with new | rest
      · obtain ⟨p, hp, rfl⟩ := List.mem_map.mp new
        refine .inr ⟨(by simp), fun p' e => ?_⟩
        cases e
        exact phasesFor_everything (Part.mem_phasesFor hp)
      · exact .inl (by simpa [e] using rest)
    case fetchHeaders =>
      split at ht
      · exact goes ht rfl (by simp)
      · refine goes ht rfl fun i hi => .inl ?_
        split at hi
        · cases hi
        · simpa [e] using hi
    case waits =>
      refine goes ht rfl fun i hi => .inl ?_
      split at hi
      · cases hi
      · simpa [e] using hi
    case phase p r =>
      rcases mem_put (ht ▸ hc) with old | rfl
      · exact .inl old
      · refine .inr ⟨?_, ?_, ?_⟩
        · intro i hi p' lists
          rcases List.mem_cons.mp hi with rfl | rest
          · exact h.phases (.phase p r) (by simp [e]) p' lists
          · exact h.phases i (by simp [e, rest]) p' lists
        · exact fun i hi => h.rest i (by simpa [e] using hi)
        · rintro p' r' e' id mem _
          cases e'
          simp only [List.mem_map, List.mem_filter] at mem
          obtain ⟨m, ⟨hm, hf⟩, rfl⟩ := mem
          exact ⟨m, by rw [← ht]; exact Table.find?_key hm, hf⟩
    case pages p r =>
      rcases mem_put (ht ▸ hc) with old | rfl
      · exact .inl old
      · split
        case isTrue  => exact .inr (h.goes fun i hi => .inl (by simpa [e] using hi))
        case isFalse =>
          refine .inr ⟨e ▸ h.phases, e ▸ h.rest, fun p' r' e' id mem fresh => ?_⟩
          subst ht
          exact h.ids p' r' (by rw [e]; exact e') id (List.mem_of_mem_drop mem) fresh
    all_goals exact goes ht rfl fun i hi => .inl (by simpa [e] using hi)

theorem Inv.exec {answer : Nat} (h : s.Inv found) (hc : c ∈ s.calls) (ok : s.goesOn c = true) :
    (s.exec found c answer).Inv found where
  core   := h.core.exec (h.listed c hc) ok
  listed := by
    intro c' hc'
    rcases (h.listed c hc).exec hc' with old | gone
    · obtain ⟨asked, mail⟩ := s.exec_same (c := c)
      exact (h.listed c' old).of_same (fun _ fresh => asked ▸ fresh) fun _ _ => by rw [mail]
    · exact gone

theorem Inv.of_same (h : s.Inv found) (core : t.Core found) (asked : t.asked = s.asked) (mail : t.mail = s.mail)
    (calls : ∀ c ∈ t.calls, c ∈ s.calls) : t.Inv found :=
  ⟨core, fun c hc => (h.listed c (calls c hc)).of_same (fun _ fresh => asked ▸ fresh) fun _ _ => by rw [mail]⟩

theorem Inv.start (h : s.Inv found) {mk : Nat → Call} {hmk : ∀ n, (mk n).id = n}
    (prog : ∀ n, (mk n).prog.all (·.lists.isNone) = true) : (s.start mk hmk).Inv found where
  core   := h.core.of_same rfl rfl rfl rfl rfl rfl
  listed := by
    intro c hc
    simp only [State.start, Table.mem_insertRow] at hc
    rcases hc with old | rfl
    · exact (h.listed c old).of_same (fun _ fresh => fresh) fun _ _ => rfl
    · exact .begins (prog _)

theorem Inv.without {ids : List String} (h : s.Inv found) (body : t.db.bodyWindow = s.db.bodyWindow)
    (inside : t.inside = s.inside) (mine : t.mine = s.mine) (asked : t.asked = s.asked) (calls : t.calls = s.calls) (mail : ∀ id, id ∉ ids → t.mail.find? id = s.mail.find? id)
    (queue : ∀ q ∈ t.db.queue, q ∈ s.db.queue ∨ q.id ∈ ids) : (t.without ids).Inv found where
  core   := h.core.without body inside mine asked mail queue
  listed := by
    intro c hc
    have fresh (id : String) (fresh : id ∉ (t.without ids).asked) : id ∉ ids ∧ id ∉ s.asked := by
      simpa only [State.without, List.mem_append, not_or, asked] using fresh
    exact (h.listed c (calls ▸ hc)).of_same (fun id out => (fresh id out).right) fun id out => mail id (fresh id out).left

theorem Inv.step {a : Action} (h : s.Inv found) (ok : s.cond a = true) (hs : s.step found a = some s') :
    s'.Inv found := by
  cases a <;> simp only [State.step] at hs
  case bootstrapListRest =>
    injection hs with hs
    subst hs
    have h : State.Inv found { s with broken := false, tierings := [] } :=
      h.of_same (h.core.of_same rfl rfl rfl rfl rfl rfl) rfl rfl fun _ hc => hc
    exact h.start fun _ => rfl
  case bootstrapPrepare | setWindow | setBodyWindow | loadEveryHeader | ensureTiers | refetchAll |
      startResync =>
    injection hs with hs
    subst hs
    exact h.start fun _ => rfl
  case loadEveryHeaderStored expectCheap =>
    obtain ⟨t, ht, hs⟩ := Option.bind_eq_some_iff.mp hs
    injection hs with hs
    subst hs
    obtain ⟨asked, mail, calls⟩ := widenStored_same ht
    refine h.of_same ?_ asked mail fun c hc => calls ▸ hc
    refine (h.core.widened ht fun expects cheap => ?_).of_same rfl rfl rfl rfl rfl rfl
    subst expects cheap
    simpa [cond] using ok
  case loadWaitingHeaders =>
    injection hs with hs
    subst hs
    exact h.of_same (.of_none rfl rfl) rfl rfl fun _ hc => hc
  case backfillBatch | headersPass =>
    split at hs
    case isFalse => cases hs
    case isTrue  =>
      injection hs with hs
      subst hs
      exact h.start fun _ => rfl
  case goOn call answer =>
    obtain ⟨c, hc, rfl⟩ := Option.map_eq_some_iff.mp hs
    refine h.exec (Table.find?_mem hc) ?_
    simpa [cond, hc] using ok
  case fail call =>
    obtain ⟨c, hc, rfl⟩ := Option.map_eq_some_iff.mp hs
    exact h.of_same (h.core.of_same rfl rfl rfl rfl rfl rfl) rfl rfl fun _ hc => (Table.mem_delete.mp hc).left
  case restart =>
    injection hs with hs
    subst hs
    exact h.of_same (h.core.of_same rfl rfl rfl rfl rfl rfl) rfl rfl fun _ hc => absurd hc Table.not_mem_empty
  case setCheap =>
    injection hs with hs
    subst hs
    exact h.of_same (h.core.of_same rfl rfl rfl rfl rfl rfl) rfl rfl fun _ hc => hc
  case changed mail =>
    injection hs with hs
    subst hs
    refine h.without rfl rfl rfl rfl rfl (fun id other => ?_) fun q hq => .inl hq
    refine Table.find?_eq_of_mem_iff fun m e => ?_
    have ne : m.id ≠ mail.id := fun eq => other (by simp [← e, eq])
    rw [Table.mem_replace]
    exact ⟨fun h => h.elim And.left fun eq => absurd (eq ▸ rfl) ne, fun hm => .inl ⟨hm, ne⟩⟩
  case urgent ids =>
    injection hs with hs
    subst hs
    exact h.without rfl rfl rfl rfl rfl (fun _ _ => rfl) fun q hq => s.db.mem_enqueueUrgent hq
  case opened ids =>
    injection hs with hs
    subst hs
    exact h.without rfl rfl rfl rfl rfl (fun _ _ => rfl) fun q hq => .inl (Table.mem_delete.mp hq).left

-- In every run all of whose steps meet the condition, what Clean Up queued for headers does not come whole unasked.
theorem reachable_unasked (h : (engine found).Reachable (fun s a => s.cond a = true) s) : s.Unasked found := by
  have inv : s.Inv found := by
    refine h.invariant (fun s start => ?_) fun s a s' inv ok hs => inv.step ok hs
    obtain ⟨calls, inside, mine, _⟩ := start
    exact ⟨.of_none inside mine, fun c hc => absurd hc (by simp [calls])⟩
  exact inv.unasked

theorem not_unasked {id : String} (mine : id ∈ s.mine)
    (queued : (s.db.queue.find? id).any (·.priority < HEADERS_ONLY) = true) : ¬s.Unasked found :=
  fun h => h [id] (s.start (fun n => { id := n, prog := [.store], ids := [id] }) fun _ => rfl) (by simp [step, queued]) id
    List.mem_cons_self mine

end State

section Examples

def age (query : String) : Nat :=
  if query = "newer_than:30d" then 30
  else if query = "newer_than:180d" then 180
  else if query = "newer_than:365d" then 365
  else 0

def byAge (phase : Phase) (mail : Mail) : Bool :=
  phase.labels = [] ∧ phase.query.all (mail.content ≤ age ·)

-- A message in the year's window is queued, and an older one is not.
def yearBox : State where
  db   := {
    window := some .year, bodyWindow := some .month, bootstrapped := true
    queue  := (∅ : Table Queued Queued.id).replace { id := "spring", priority := 13 } }
  mail := ((∅ : Table Mail Mail.id).replace { id := "spring", content := 150 }).replace { id := "old", content := 900 }

-- Bodies reach further than the window.
def monthBox : State :=
  { yearBox with db := { window := some .month, bodyWindow := some .year, bootstrapped := true }, cheap := true }

def goOn (call : Nat) (answers : List Nat) : List Action :=
  answers.map (.goOn call ·)

-- Headers become cheap, and every header is loaded.
def everyHeader (call : Nat) : List Action :=
  [.setCheap true, .loadEveryHeader true] ++ goOn call (List.replicate 16 9)

-- A headers pass reads the tier, which becomes Clean Up's before it promotes the queue.
def raced : List Action :=
  [.headersPass ["spring"]] ++ goOn 1 [0, 0] ++ everyHeader 2 ++ goOn 1 [0]

-- A repair reads the tiering before Clean Up widens the window, and the window after it.
def stale : List Action :=
  [.refetchAll] ++ goOn 1 [0, 0] ++ everyHeader 2 ++ goOn 1 (List.replicate 20 9)

-- Headers are refused again after every header was loaded, and the user repairs the mailbox.
theorem reachable_unasked_refused : ∃ s : State, s.Unasked byAge ∧ s.mine = ["old"] ∧
    (s.db.queue.find? "old").any (·.priority = 15) = true := by
  have run : ((engine byAge).run (fun s a => s.cond a = true) yearBox
      (everyHeader 1 ++ [.setCheap false, .headersPass ["old"]] ++ goOn 1 [0, 0, 0] ++ [.refetchAll] ++
        goOn 1 (List.replicate 22 9))).any fun s =>
          s.mine = ["old"] ∧ (s.db.queue.find? "old").any (·.priority = 15) = true := by decide
  obtain ⟨s, hs, ends⟩ := (Option.any_eq_true _ _).mp run
  exact ⟨s, State.reachable_unasked (.run (.start ⟨rfl, rfl, rfl, rfl⟩) hs), of_decide_eq_true ends⟩

-- A run after which a batch takes what Clean Up queued.
def Fetches (s : State) (as : List Action) : Prop :=
  ∃ s', (engine byAge).run (fun _ _ => True) s as = some s' ∧ (engine byAge).Reachable (fun _ _ => True) s' ∧
    ¬s'.Unasked byAge

theorem fetches {s : State} {as : List Action} (start : (engine byAge).Start s)
    (h : ((engine byAge).run (fun _ _ => True) s as).any (fun s =>
      ∃ id ∈ s.mine, (s.db.queue.find? id).any (·.priority < HEADERS_ONLY) = true) = true) : Fetches s as := by
  obtain ⟨s', hs, whole⟩ := (Option.any_eq_true _ _).mp h
  obtain ⟨id, mine, queued⟩ := of_decide_eq_true whole
  exact ⟨s', hs, .run (.start start) hs, State.not_unasked mine queued⟩

-- And when headers were cheap all along, a body window beyond the sync window brings whole messages.
theorem fetched_unasked : Fetches yearBox raced ∧ Fetches yearBox stale ∧ Fetches monthBox (everyHeader 1) :=
  ⟨fetches ⟨rfl, rfl, rfl, rfl⟩ (by decide), fetches ⟨rfl, rfl, rfl, rfl⟩ (by decide),
    fetches ⟨rfl, rfl, rfl, rfl⟩ (by decide)⟩

end Examples

end Kaluta.Download
