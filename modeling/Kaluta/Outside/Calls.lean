import Kaluta.Outside.Kept

-- Where a call is, what it holds by then, and its single steps.
namespace Kaluta.Outside

open Guide (Unicode)

variable [Unicode] [Mime]

-- No draft is saved under the row id that an unanswered call goes by, and no send of it is begun by others.
def State.leftAlone (s : State) (d : Rowid) : Bool :=
  s.calls.rows.all (·.phase.draftId ≠ some d)

-- The draft of a call is left alone until the call is answered, and no other is saved in its place; the mailbox is
-- still an agent's, or synced, when the call's send is to go out; and the draft of a call that failed can be deleted.
def State.undisturbed (s : State) : Action → Bool
  | .change change     => (change.saves s.db).all s.leftAlone
  | .open_ draftId _ _ => s.leftAlone draftId
  | .go id given       => s.calls.rows.all fun c => c.id ≠ id ||
    match c.phase with
    | .saving _     => s.leftAlone s.db.drafts.nextRowid
    | .routing _    => s.env.syncs || c.headless || s.env.agent.isSome
    | .cleaning d _ => (given.fault.isNone && s.env.opened) || (s.db.drafts.find? d).isNone
    | _             => true
  | _                  => true

variable {s s' t : State} {c c' : Call} {id : Nat} {arguments : Except String Arguments} {d : Rowid}
variable {sends : List OutboxOp} {p : Phase}

namespace State

omit [Unicode] [Mime] in
theorem leftAlone_iff : s.leftAlone d = true ↔ ∀ c ∈ s.calls, c.phase.draftId ≠ some d := by
  simp [leftAlone, Table.mem_rows]

-- Nothing of a call is stored, or about to be.
structure Nothing (s : State) (id : Nat) : Prop where
  draft  : ∀ row ∈ s.db.drafts, s.authors row.id ≠ some id
  queued : s.sendsOf id = []
  opened : ∀ o ∈ s.opened, o.author ≠ some id

-- Not even a row id is of the call.
structure Untouched (s : State) (id : Nat) : Prop where
  author : ∀ d, s.authors d ≠ some id
  queued : s.sendsOf id = []
  opened : ∀ o ∈ s.opened, o.author ≠ some id

-- The call's draft is as it saved it, unless it was deleted, and these sends of it were queued.
structure Owns (s : State) (id : Nat) (arguments : Except String Arguments) (d : Rowid) (sends : List OutboxOp) :
    Prop where
  mine   : s.authors d = some id
  only   : ∀ d', s.authors d' = some id → d' = d
  asked  : ∀ row ∈ s.db.drafts, row.id = d → Wants arguments (contentOf row.record)
  queued : s.sendsOf id = sends
  opened : ∀ o ∈ s.opened, o.author ≠ some id

-- What holds of a call, by where it is.
def Holds (s : State) (c : Call) : Prop :=
  match c.phase with
  | .begun                     => s.Untouched c.id
  | .creating a                => s.Untouched c.id ∧ ∃ args, c.arguments = .ok args ∧ args.draft = a
  | .approvingDraft a          => s.Untouched c.id ∧ ∃ args, c.arguments = .ok args ∧ args.draft = a
  | .composing a               => s.Untouched c.id ∧ ∃ args, c.arguments = .ok args ∧ args.draft = a
  | .saving draft              => s.Untouched c.id ∧ draft.id = 0 ∧ Wants c.arguments (contentOf draft)
  | .sending d                 => s.Owns c.id c.arguments d []
  | .preparing d _             => s.Owns c.id c.arguments d []
  | .approving d               => s.Owns c.id c.arguments d []
  | .routing d                 => s.Owns c.id c.arguments d []
  | .freezing d route          => s.Owns c.id c.arguments d [] ∧ route.queue = true
  | .pushing d f               => s.Owns c.id c.arguments d [] ∧ f.queue = true ∧
    ∃ content, OutboxCarries f.op content ∧ Wants c.arguments content
  | .pushed d                  => ∃ op content, s.Owns c.id c.arguments d [op] ∧ OutboxCarries op content ∧
    Wants c.arguments content
  | .cleaning d _              => s.Owns c.id c.arguments d []
  | .answered (.error _) _     => s.Nothing c.id
  | .answered (.sent ..) sends => ∃ op content, sends = [op] ∧ OutboxCarries op content ∧ Wants c.arguments content

-- Drafts and sends are of calls that were made.
structure Known (s : State) : Prop where
  author : ∀ d id, s.authors d = some id → ∃ c ∈ s.calls, c.id = id
  queued : ∀ e ∈ s.queued, ∀ id, e.1 = some id → ∃ c ∈ s.calls, c.id = id
  opened : ∀ o ∈ s.opened, ∀ id, o.author = some id → ∃ c ∈ s.calls, c.id = id

structure Inv (s : State) : Prop where
  known : s.Known
  holds : ∀ c ∈ s.calls, s.Holds c

-- What a step leaves of a call as it was.
structure Leaves (s s' : State) (c : Call) : Prop where
  author : ∀ d, s'.authors d = some c.id → s.authors d = some c.id
  mine   : ∀ d, c.phase.draftId = some d → s'.authors d = s.authors d
  rows   : ∀ row' ∈ s'.db.drafts, s'.authors row'.id = some c.id → ∃ row ∈ s.db.drafts, row.id = row'.id
  kept   : ∀ d, c.phase.draftId = some d → ∀ row' ∈ s'.db.drafts, row'.id = d →
    ∃ row ∈ s.db.drafts, row.id = d ∧ contentOf row.record = contentOf row'.record
  queued : s'.sendsOf c.id = s.sendsOf c.id
  opened : ∀ o ∈ s'.opened, o.author = some c.id → o ∈ s.opened

-- The call was answered with a success.
def Sent (c : Call) : Prop :=
  ∃ d queued sends, c.phase = .answered (.sent d queued) sends

section Frame

omit [Unicode] [Mime]

theorem Leaves.same (db : s'.db = s.db) (authors : s'.authors = s.authors) (queued : s'.queued = s.queued)
    (opened : s'.opened = s.opened) : s.Leaves s' c where
  author d is            := authors ▸ is
  mine d _               := by rw [authors]
  rows row mem _         := ⟨row, db ▸ mem, rfl⟩
  kept d _ row mem same  := ⟨row, db ▸ mem, same, rfl⟩
  queued                 := by rw [sendsOf, queued, sendsOf]
  opened o mem _         := opened ▸ mem

-- The drafts are kept, and of other calls is what is queued or opened.
theorem Leaves.keeps (keeps : Keeps s.db s'.db none) (authors : s'.authors = s.authors)
    (queued : s'.sendsOf c.id = s.sendsOf c.id) (opened : ∀ o ∈ s'.opened, o.author = some c.id → o ∈ s.opened) :
    s.Leaves s' c where
  author d is           := authors ▸ is
  mine d _              := by rw [authors]
  rows row mem _        :=
    have ⟨old, mem, same, _⟩ := keeps.row row mem nofun
    ⟨old, mem, same⟩
  kept d _ row mem same :=
    have ⟨old, mem, same', content⟩ := keeps.row row mem nofun
    ⟨old, mem, same'.trans same, content⟩
  queued                := queued
  opened                := opened

-- A draft is saved under a new row id that the call does not go by.
theorem Leaves.saved {author : Option Nat} (keeps : Keeps s.db t.db (some d))
    (authors : t.authors = Function.update s.authors d author) (queued : t.queued = s.queued)
    (opened : t.opened = s.opened) (other : author ≠ some c.id) (free : c.phase.draftId ≠ some d) : s.Leaves t c where
  author d' is := by
    rw [authors] at is
    by_cases same : d' = d
    case pos => rw [same, Function.update_self] at is; exact absurd is other
    case neg => rwa [Function.update_of_ne same] at is
  mine d' is := by
    rw [authors]
    exact Function.update_of_ne (fun same => free (is.trans (congrArg some same))) _ _
  rows row mem is := by
    rw [authors] at is
    by_cases same : row.id = d
    case pos => rw [same, Function.update_self] at is; exact absurd is other
    case neg =>
      obtain ⟨old, mem, same, _⟩ := keeps.row row mem fun is => same (Option.some.inj is).symm
      exact ⟨old, mem, same⟩
  kept d' is row mem same := by
    obtain ⟨old, mem, same', content⟩ := keeps.row row mem fun is' => free (by rw [is, ← same, is'])
    exact ⟨old, mem, same'.trans same, content⟩
  queued := by rw [sendsOf, queued, sendsOf]
  opened _ mem _ := opened ▸ mem

-- A draft that is there is changed, and the call does not go by it.
theorem Leaves.edited (keeps : Keeps s.db t.db (some d)) (there : ∃ row ∈ s.db.drafts, row.id = d)
    (authors : t.authors = s.authors) (queued : t.queued = s.queued) (opened : t.opened = s.opened)
    (free : c.phase.draftId ≠ some d) : s.Leaves t c where
  author d' is := authors ▸ is
  mine d' _    := by rw [authors]
  rows row mem _ := by
    by_cases same : row.id = d
    case pos => rwa [same]
    case neg =>
      obtain ⟨old, mem, same, _⟩ := keeps.row row mem fun is => same (Option.some.inj is).symm
      exact ⟨old, mem, same⟩
  kept d' is row mem same := by
    obtain ⟨old, mem, same', content⟩ := keeps.row row mem fun is' => free (by rw [is, ← same, is'])
    exact ⟨old, mem, same'.trans same, content⟩
  queued := by rw [sendsOf, queued, sendsOf]
  opened _ mem _ := opened ▸ mem

theorem Nothing.leave (h : s.Nothing c.id) (l : s.Leaves s' c) : s'.Nothing c.id where
  draft row' mem is := by
    obtain ⟨row, old, same⟩ := l.rows row' mem is
    exact h.draft row old (same ▸ l.author _ is)
  queued         := l.queued.trans h.queued
  opened o o' is := h.opened o (l.opened o o' is) is

theorem Untouched.leave (h : s.Untouched c.id) (l : s.Leaves s' c) : s'.Untouched c.id where
  author d is    := h.author d (l.author d is)
  queued         := l.queued.trans h.queued
  opened o o' is := h.opened o (l.opened o o' is) is

theorem Untouched.nothing (h : s.Untouched id) : s.Nothing id :=
  ⟨fun row _ => h.author row.id, h.queued, h.opened⟩

end Frame

theorem Owns.leave (h : s.Owns c.id arguments d sends) (is : c.phase.draftId = some d) (l : s.Leaves s' c) :
    s'.Owns c.id arguments d sends where
  mine           := (l.mine d is).trans h.mine
  only d' is'    := h.only d' (l.author d' is')
  asked row' mem same := by
    obtain ⟨row, old, same, content⟩ := l.kept d is row' mem same
    exact content ▸ h.asked row old same
  queued         := l.queued.trans h.queued
  opened o o' is := h.opened o (l.opened o o' is) is

theorem Holds.leave (h : s.Holds c) (l : ¬Sent c → s.Leaves s' c) : s'.Holds c := by
  unfold Holds at *
  split at h <;> rename_i phase
  case h_15 => exact h
  all_goals replace l := l (by rintro ⟨_, _, _, is⟩; rw [is] at phase; cases phase)
  case h_1  => exact h.leave l
  case h_2  => exact ⟨h.1.leave l, h.2⟩
  case h_3  => exact ⟨h.1.leave l, h.2⟩
  case h_4  => exact ⟨h.1.leave l, h.2⟩
  case h_5  => exact ⟨h.1.leave l, h.2⟩
  case h_10 => exact ⟨h.1.leave (by rw [phase]; rfl) l, h.2⟩
  case h_11 => exact ⟨h.1.leave (by rw [phase]; rfl) l, h.2⟩
  case h_12 =>
    obtain ⟨op, content, owns, rest⟩ := h
    exact ⟨op, content, owns.leave (by rw [phase]; rfl) l, rest⟩
  case h_14 => exact h.leave l
  all_goals exact h.leave (by rw [phase]; rfl) l

-- One call goes on, in a state that leaves the others as they were.
theorem Inv.put (h : s.Inv) (calls : t.calls = s.calls)
    (author : ∀ d id, t.authors d = some id → s.authors d = some id ∨ id = c.id)
    (queued : ∀ e ∈ t.queued, e ∈ s.queued ∨ e.1 = some c.id) (opened : t.opened = s.opened)
    (others : ∀ c' ∈ s.calls, c'.id ≠ c.id → ¬Sent c' → s.Leaves t c') (holds : t.Holds { c with phase := p }) :
    (t.put c p).Inv := by
  have still : ∀ id, (∃ c' ∈ s.calls, c'.id = id) ∨ id = c.id → ∃ c' ∈ (t.put c p).calls, c'.id = id := by
    intro id is
    by_cases own : id = c.id
    case pos => exact ⟨{ c with phase := p }, Table.mem_replace.mpr (.inr rfl), own.symm⟩
    case neg =>
      obtain ⟨c', mem', same⟩ := is.resolve_right own
      exact ⟨c', Table.mem_replace.mpr (.inl ⟨calls ▸ mem', fun is => own (same ▸ is)⟩), same⟩
  refine ⟨⟨fun d id is => ?_, fun e mem id is => ?_, fun o mem id is => ?_⟩, fun c' mem' => ?_⟩
  case refine_1 => exact still id ((author d id is).imp_left (h.known.author d id))
  case refine_2 =>
    refine still id ((queued e mem).imp (fun old => h.known.queued e old id is) fun own => ?_)
    exact Option.some.inj (is.symm.trans own)
  case refine_3 => exact still id (.inl (h.known.opened o (opened ▸ mem) id is))
  case refine_4 =>
    obtain ⟨mem', other⟩ | rfl := Table.mem_replace.mp mem'
    case inl => exact ((h.holds c' (calls ▸ mem')).leave (others c' (calls ▸ mem') other)).leave fun _ => .same rfl rfl rfl rfl
    case inr => exact holds.leave fun _ => .same rfl rfl rfl rfl

theorem Inv.goOn (h : s.Inv) (holds : s.Holds { c with phase := p }) : (s.put c p).Inv :=
  h.put rfl (fun _ _ is => .inl is) (fun _ mem => .inl mem) rfl (fun _ _ _ _ => .same rfl rfl rfl rfl) holds

theorem Inv.fail {failure : Failure} (h : s.Inv) (nothing : s.Nothing c.id) : (s.fail c failure).Inv :=
  h.goOn nothing

theorem Inv.env (h : s.Inv) (env : Env) : { s with env }.Inv where
  known   := ⟨h.known.author, h.known.queued, h.known.opened⟩
  holds c mem := (h.holds c mem).leave fun _ => .same rfl rfl rfl rfl

theorem Inv.save {draft : DraftRecord} {given : Given} (h : s.Inv) (untouched : s.Untouched c.id)
    (new : draft.id = 0) (wants : Wants c.arguments (contentOf draft))
    (ok : s.leftAlone s.db.drafts.nextRowid = true) : (s.save c draft given).Inv := by
  unfold State.save
  split
  case isTrue  => exact h.fail untouched.nothing
  case isFalse =>
    split
    case isTrue  => exact h.fail untouched.nothing
    case isFalse =>
      split
      case _ => exact h.fail untouched.nothing
      case _ => exact h.fail untouched.nothing
      case _ db d _ saved =>
        obtain ⟨is, keeps, _, content⟩ := saveDraft_ok saved
        rw [if_pos new] at is
        refine h.put (t := { s with db, env := _, authors := _ }) rfl (fun d' id' is => ?author) (fun _ mem => .inl mem) rfl
          (fun c' mem' other _ => .saved keeps rfl rfl rfl (fun is => other (Option.some.inj is).symm) fun is' => leftAlone_iff.mp ok c' mem' (is ▸ is'))
          ⟨Function.update_self .., fun d' is' => ?only, fun row mem same => content row mem same new ▸ wants,
            untouched.queued, untouched.opened⟩
        case author =>
          by_cases same : d' = d
          case pos =>
            have is : Function.update s.authors d (some c.id) d' = some id' := is
            rw [same, Function.update_self] at is
            exact .inr (Option.some.inj is).symm
          case neg =>
            have is : Function.update s.authors d (some c.id) d' = some id' := is
            rw [Function.update_of_ne same] at is
            exact .inl is
        case only =>
          by_contra ne
          have is' : Function.update s.authors d (some c.id) d' = some c.id := is'
          rw [Function.update_of_ne ne] at is'
          exact untouched.author d' is'

theorem Inv.prepare {asks : Bool} {fault : Option CoreError} (h : s.Inv) (owns : s.Owns c.id c.arguments d []) :
    (s.prepare c d asks fault).Inv := by
  unfold State.prepare
  split
  case _ => exact h.goOn owns
  case _ => exact h.goOn owns
  case _ =>
    split
    case isTrue  => exact h.goOn owns
    case isFalse =>
      split
      case isTrue  => exact h.goOn owns
      case isFalse => exact h.goOn owns

-- No send is open of a call that was not answered with a success, and no draft but the one it goes by is of it.
theorem Holds.opened (h : s.Holds c) (unsent : ¬Sent c) : ∀ o ∈ s.opened, o.author ≠ some c.id := by
  unfold Holds at h
  split at h <;> rename_i phase
  case h_1  => exact h.opened
  case h_14 => exact h.opened
  case h_15 => exact absurd ⟨_, _, _, phase⟩ unsent
  case h_12 => exact h.choose_spec.choose_spec.1.opened
  case h_2 | h_3 | h_4 | h_5 | h_10 | h_11 => exact h.1.opened
  all_goals exact h.opened

theorem Holds.foreign (h : s.Holds c) (unsent : ¬Sent c) (there : ∃ row ∈ s.db.drafts, row.id = d)
    (free : c.phase.draftId ≠ some d) : s.authors d ≠ some c.id := by
  unfold Holds at h
  split at h <;> rename_i phase <;> rw [phase] at free
  case h_1  => exact h.author d
  case h_14 =>
    obtain ⟨row, mem, rfl⟩ := there
    exact h.draft row mem
  case h_15 => exact absurd ⟨_, _, _, phase⟩ unsent
  case h_12 => exact fun is => free (congrArg some (h.choose_spec.choose_spec.1.only d is).symm)
  case h_2 | h_3 | h_4 | h_5 => exact h.1.author d
  case h_10 | h_11 => exact fun is => free (congrArg some (h.1.only d is).symm)
  all_goals exact fun is => free (congrArg some (h.only d is).symm)

omit [Unicode] [Mime] in
theorem route_ok {fault : Option CoreError} {route : Route} (h : s.route c d fault = .ok route)
    (ok : (s.env.syncs || c.headless || s.env.agent.isSome) = true) : route.queue = true := by
  unfold State.route at h
  split at h
  case isTrue  => cases h
  case isFalse =>
    split at h
    case isTrue  => cases h
    case isFalse =>
      split at h
      case _ => cases h
      case _ => cases h
      case _ =>
        cases h
        exact ok

omit [Unicode] [Mime] in
theorem sendsOf_append {op : OutboxOp} {author : Option Nat} (queued : t.queued = s.queued ++ [(author, op)]) :
    t.sendsOf id = s.sendsOf id ++ if author = some id then [op] else [] := by
  simp only [sendsOf, queued, List.filter_append, List.map_append, List.filter_cons, List.filter_nil]
  split <;> simp_all

theorem Inv.pushFrozen {f : Frozen} {fault : Option CoreError} (h : s.Inv) (owns : s.Owns c.id c.arguments d [])
    (queue : f.queue = true) (wants : ∃ content, OutboxCarries f.op content ∧ Wants c.arguments content) :
    (s.pushFrozen c d f fault).Inv := by
  unfold State.pushFrozen
  split
  case _ => exact h.goOn owns
  case _ => exact h.goOn owns
  case _ db _ pushed =>
    have keeps := keeps_push pushed
    obtain ⟨content, carries, wants⟩ := wants
    rw [if_pos queue]
    refine h.put rfl (fun _ _ is => .inl is) (fun e mem => ?queued) rfl (fun c' _ other _ => ?others)
      ⟨f.op, content, ⟨owns.mine, owns.only, ?asked, ?sends, owns.opened⟩, carries, wants⟩
    case queued =>
      obtain old | own := List.mem_append.mp mem
      case inl => exact .inl old
      case inr => cases List.mem_singleton.mp own; exact .inr rfl
    case others =>
      refine .keeps keeps rfl ?_ fun _ mem _ => mem
      rw [sendsOf_append rfl, if_neg fun is => other (Option.some.inj is).symm, List.append_nil]
    case asked =>
      intro row mem same
      obtain ⟨old, mem, same', content⟩ := keeps.row row mem nofun
      exact content ▸ owns.asked old mem (same'.trans same)
    case sends => rw [sendsOf_append rfl, owns.queued, if_pos rfl, List.nil_append]

-- The draft of a call that failed is gone with its answer.
theorem Inv.clean {failure : Failure} {given : Given} (h : s.Inv) (owns : s.Owns c.id c.arguments d [])
    (ok : ((given.fault.isNone && s.env.opened) || (s.db.drafts.find? d).isNone) = true) :
    ((s.clean d given).fail c failure).Inv := by
  have left : ∀ row ∈ (s.clean d given).db.drafts, row.id ≠ d := by
    unfold State.clean
    split
    case isTrue kept =>
      obtain able | gone := Bool.or_eq_true_iff.mp ok
      case inl =>
        obtain ⟨none_, opened⟩ := Bool.and_eq_true_iff.mp able
        simp [Option.isNone_iff_eq_none.mp none_, opened] at kept
      case inr => exact Table.find?_eq_none_iff.mp (Option.isNone_iff_eq_none.mp gone)
    case isFalse => exact not_mem_discardDraft
  have keeps : Keeps s.db (s.clean d given).db none := by
    unfold State.clean
    split
    case isTrue  => exact .of_eq rfl
    case isFalse => exact keeps_discardDraft
  have rest : (s.clean d given).authors = s.authors ∧ (s.clean d given).queued = s.queued ∧
      (s.clean d given).opened = s.opened ∧ (s.clean d given).calls = s.calls := by
    unfold State.clean
    split <;> exact ⟨rfl, rfl, rfl, rfl⟩
  obtain ⟨authors, queued, opened, calls⟩ := rest
  refine h.put calls (fun _ _ is => .inl (authors ▸ is)) (fun _ mem => .inl (queued ▸ mem)) opened
    (fun c' _ _ _ => .keeps keeps authors (by rw [sendsOf, queued, sendsOf]) fun _ mem _ => opened ▸ mem)
    ⟨fun row mem is => ?_, ?_, fun o mem is => ?_⟩
  case refine_1 => exact left row mem (owns.only row.id (authors ▸ is))
  case refine_2 => rw [sendsOf, queued]; exact owns.queued
  case refine_3 => exact owns.opened o (opened ▸ mem) is

theorem Inv.go {given : Given} (h : s.Inv) (mem : c ∈ s.calls) (ok : s.undisturbed (.go c.id given) = true)
    (hs : s.go c given = some s') : s'.Inv := by
  have holds := h.holds c mem
  replace ok := (Bool.or_eq_true_iff.mp (List.all_eq_true.mp ok c mem)).resolve_left (by simp)
  unfold Holds at holds
  unfold State.go at hs
  split at hs <;> rename_i phase <;> rw [phase] at holds ok <;> dsimp only at holds ok hs
  case h_1 =>
    split at hs
    case isTrue  => cases hs; exact h.fail holds.nothing
    case isFalse =>
      split at hs
      case _ => cases hs; exact h.fail holds.nothing
      case _ args read =>
        split at hs
        case isTrue  => cases hs; exact h.fail holds.nothing
        case isFalse =>
          split at hs
          case _ =>
            split at hs
            case isTrue  => cases hs; exact h.fail holds.nothing
            case isFalse => cases hs
          case _ => cases hs; exact h.goOn ⟨holds, args, read, rfl⟩
  case h_2 =>
    have untouched : State.Untouched { s with env := s.env.counted c.session { tool := .createDraft } given.now } c.id :=
      ⟨holds.1.author, holds.1.queued, holds.1.opened⟩
    split at hs <;> cases hs
    case _ => exact (h.env _).fail untouched.nothing
    case _ => exact (h.env _).goOn ⟨untouched, holds.2⟩
    case _ => exact (h.env _).goOn ⟨untouched, holds.2⟩
  case h_3 =>
    split at hs <;> cases hs
    case _ => exact h.fail holds.1.nothing
    case _ => exact h.goOn holds
  case h_4 =>
    obtain ⟨untouched, args, read, rfl⟩ := holds
    split at hs <;> cases hs
    case _                => exact h.fail untouched.nothing
    case _ draft composed =>
      obtain ⟨new, asks⟩ := compose_ok composed
      exact h.goOn ⟨untouched, new, args, read, asks⟩
  case h_5 => cases hs; exact h.save holds.1 holds.2.1 holds.2.2 ok
  case h_6 d =>
    have owns : State.Owns { s with env := s.env.counted c.session { tool := .send, draftId := some d } given.now }
      c.id c.arguments d [] := ⟨holds.mine, holds.only, holds.asked, holds.queued, holds.opened⟩
    split at hs <;> cases hs <;> exact (h.env _).goOn owns
  case h_7 => cases hs; exact h.prepare holds
  case h_8 => split at hs <;> cases hs <;> exact h.goOn holds
  case h_9 d =>
    split at hs <;> cases hs
    case _              => exact h.goOn holds
    case _ route routed => exact h.goOn ⟨holds, route_ok routed ok⟩
  case h_10 d route =>
    split at hs <;> cases hs
    case _ => exact h.goOn holds.1
    case _ => exact h.goOn holds.1
    case _ f _ frozen =>
      obtain ⟨queue, _, row, mem, same, carries⟩ := freeze_ok frozen
      exact h.goOn ⟨holds.1, queue.trans holds.2, _, carries, holds.1.asked row mem same⟩
  case h_11 => cases hs; exact h.pushFrozen holds.1 holds.2.1 holds.2.2
  case h_12 =>
    cases hs
    obtain ⟨op, content, owns, carries, wants⟩ := holds
    exact h.goOn ⟨op, content, owns.queued, carries, wants⟩
  case h_13 => cases hs; exact h.clean holds ok
  case h_14 => cases hs

end State

end Kaluta.Outside
