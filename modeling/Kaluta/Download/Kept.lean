import Kaluta.Download.Unasked
import Kaluta.Download.Whole

-- The runs of an account that keep all mail of the window.
namespace Kaluta.Download

namespace State

variable {found : Phase → Mail → Bool} {s s' t u : State} {c c' : Call}

-- The first listing of the rest begins, behind the Inbox's.
theorem Whole.listRest (h : s.Whole found)
    {hmk : ∀ n, ({ id := n, prog := bootstrapListRest, changed := true, lists := true } : Call).id = n} (inbox : s.keeping found .bootstrapListRest = true) :
    (State.start { s with broken := false, tierings := [] }
      (fun id => { id, prog := bootstrapListRest, changed := true, lists := true }) hmk).Whole found := by
  have lists (now p w) (hp : p ∈ Part.rest.of now) : listsPhase now p w bootstrapListRest = true := by
    simp [bootstrapListRest, listsPhase, hp]
  have inbox (m) (hm : m ∈ s.mail) (p) (hp : p ∈ Part.inbox.of .month) (hf : found p m = true) :
      s.db.keeps p.priority m.id = true := by
    simpa [hf] using List.all_eq_true.mp (List.all_eq_true.mp inbox m hm) p hp
  refine ⟨?_, fun on => ⟨rfl, (h.sync on).right⟩, h.fixed, ?_, fun _ _ => .inl (by rintro _ ⟨⟩), ?_⟩
  · intro d hd
    simp only [State.start, Table.mem_insertRow] at hd
    rcases hd with old | rfl
    · exact h.calls d old
    · exact ⟨rfl, fun _ => rfl, fun mem => by simp [bootstrapListRest] at mem,
        fun b mem => by simp [bootstrapListRest] at mem⟩
  · intro d hd sets m hm p hp less hf
    simp only [State.start, Table.mem_insertRow] at hd
    rcases hd with old | rfl
    · exact h.rest d old sets m hm p hp less hf
    · rcases (mem_inbox_or_rest hp less : _ ∨ p ∈ Part.rest.of s.now) with first | rest
      · exact .inl (inbox m hm p first hf)
      · exact .inr (by rw [Call.remains, Bool.or_eq_true]; exact .inl (lists _ _ _ rest))
  · intro _ _ m _ p hp _
    refine .inr ⟨_, Table.mem_insertRow.mpr (.inr rfl), rfl, ?_⟩
    rw [Call.remains, Bool.or_eq_true]
    exact .inl (lists _ _ _ (own_subset_rest hp))

-- Nothing but the queue and what is stored changes.
theorem Whole.of_keeps (h : s.Whole found) (calls : t.calls = s.calls) (mail : t.mail = s.mail)
    (broken : t.broken = s.broken) (syncing : t.syncing = s.syncing) (boot : t.db.bootstrapped = s.db.bootstrapped)
    (window : t.db.window = s.db.window) (body : t.db.bodyWindow = s.db.bodyWindow) (tierings : t.tierings = s.tierings)
    (keeps : ∀ n id, s.db.keeps n id = true → t.db.keeps n id = true) : t.Whole found := by
  have now : t.now = s.now := by rw [State.now, window]
  have was (hs : t.fills = true) : s.fills = true := by simpa [State.fills, boot, calls] using hs
  refine ⟨calls ▸ h.calls, fun on => broken ▸ boot ▸ h.sync (syncing ▸ on), ?_, ?_, ?_, ?_⟩
  · exact fun on m hm p hp less hf => keeps _ _ (h.fixed (boot ▸ on) m (mail ▸ hm) p (now ▸ hp) less hf)
  · exact fun d hd sets m hm p hp less hf =>
      (h.rest d (calls ▸ hd) sets m (mail ▸ hm) p (now ▸ hp) less hf).imp (keeps _ _) fun left => now ▸ left
  · intro unbroken on
    refine (h.tierings (broken ▸ unbroken) (was on)).imp (fun all hf mem => ?_) ?_
    · rw [fits, body]
      exact all hf (tierings ▸ mem)
    · rintro ⟨d, hd, rest⟩
      exact ⟨d, calls ▸ hd, rest⟩
  · intro unbroken on m hm p hp hf
    rcases h.own (broken ▸ unbroken) (was on) m (mail ▸ hm) p (now ▸ hp) hf with ⟨tier, mem, kept⟩ | ⟨d, hd, on, left⟩
    · exact .inl ⟨tier, tierings ▸ mem, keeps _ _ kept⟩
    · exact .inr ⟨d, calls ▸ hd, on, now ▸ left⟩

-- What a wider window leaves as it is.
structure Widened (s t : State) : Prop where
  calls    : t.calls = s.calls
  mail     : t.mail = s.mail
  broken   : t.broken = s.broken
  syncing  : t.syncing = s.syncing
  boot     : t.db.bootstrapped = s.db.bootstrapped
  keeps    : ∀ n id, t.db.keeps n id = s.db.keeps n id

theorem widenStored_widened {cheap expectCheap : Bool} (hs : s.widenStored cheap expectCheap = some t) : Widened s t := by
  simp only [widenStored] at hs
  split at hs
  case isTrue  => cases hs
  case isFalse =>
    injection hs with hs
    subst hs
    exact ⟨rfl, rfl, rfl, rfl, rfl, fun _ _ => rfl⟩

-- On an account that is not syncing, the next start lists.
theorem Whole.stored (h : s.Whole found) (off : s.syncing = false) (hs : Widened s u) (calls : t.calls = u.calls)
    (mail : t.mail = u.mail) (syncing : t.syncing = u.syncing) (broken : t.broken = true)
    (boot : t.db.bootstrapped = u.db.bootstrapped) (keeps : ∀ n id, t.db.keeps n id = u.db.keeps n id) :
    t.Whole found := by
  have calls := calls.trans hs.calls
  have mail := mail.trans hs.mail
  have keeps (n id) := (keeps n id).trans (hs.keeps n id)
  refine ⟨calls ▸ h.calls, fun on => ?_, ?_, ?_, fun unbroken => ?_, fun unbroken => ?_⟩
  · exact nomatch off.symm.trans ((syncing.trans hs.syncing).symm.trans on)
  · intro on m hm p hp less hf
    exact (keeps _ _).trans
      (h.fixed ((boot.trans hs.boot).symm.trans on) m (mail ▸ hm) p (mem_phasesFor_fixed less hp) less hf)
  · intro d hd sets m hm p hp less hf
    exact (h.rest d (calls ▸ hd) sets m (mail ▸ hm) p (mem_phasesFor_fixed less hp) less hf).imp (keeps _ _).trans
      (Call.remains_fixed less)
  · exact nomatch broken.symm.trans unbroken
  · exact nomatch broken.symm.trans unbroken

theorem Whole.exec {answer : Nat} (h : s.Whole found) (hc : c ∈ s.calls) (ok : s.keepsOn c = true) :
    (s.exec found c answer).Whole found := by
  have known (m : Mail) (hm : m ∈ s.mail) : (s.mail.find? m.id).isSome = true := by simp [Table.find?_key hm]
  have shape := (h.calls c hc).shaped
  cases e : c.prog
  case nil =>
    simp only [State.exec, e]
    refine h.ends rfl rfl rfl (fun _ hd => (Table.mem_delete.mp hd).left) (fun on => ⟨on, (h.sync on).left⟩) ?_
    refine fun unbroken => ⟨unbroken, fun d hd mem => ?_⟩
    have eq : d.id = c.id := by simpa [State.drop, hd] using mem
    cases s.calls.eq_of_key_eq hd hc eq
    simp [Call.owes, e]
  case cons i prog =>
    have next := Bool.and_eq_true_iff.mp (e ▸ shape : shaped (i :: prog) = true)
    cases i <;> simp only [State.exec, e]
    case setWindow window =>
      have eq : prog = relistWindow := of_decide_eq_true next.right
      exact h.rewindow eq rfl rfl rfl rfl rfl rfl rfl fun _ _ => rfl
    case setBodyWindow body =>
      have eq : prog = ensureTiers := of_decide_eq_true next.right
      exact h.setBodyWindow hc (eq ▸ e) rfl eq rfl rfl rfl rfl rfl rfl rfl rfl rfl fun _ _ => rfl
    case widen expectCheap =>
      have eq : prog = relistWindow := of_decide_eq_true next.right
      have off : c.changed = false := (h.calls c hc).widens expectCheap (by simp [e])
      split
      case h_1 hs =>
        have wider := widenStored_widened hs
        exact h.rewindow eq rfl rfl wider.calls wider.mail wider.broken wider.syncing wider.boot wider.keeps
      case h_2 =>
        have lists : c.lists = false := by
          cases on : c.lists
          case false => rfl
          case true  => cases off.symm.trans ((h.calls c hc).lists on)
        exact h.finish hc (.inl lists) (by simp [e, eq, relistWindow]) (fun on => by cases off.symm.trans on)
          ⟨rfl, rfl, rfl, rfl, rfl⟩ .refl rfl rfl rfl fun _ _ _ kept => kept
    case readWindow =>
      refine h.turns hc rfl ((h.calls c hc).tail e rfl rfl rfl) ?_ ?_ rfl ?_
      · exact fun mem => by simp [e, mem]
      · exact fun changed mem => .inl ⟨changed, by simpa [e] using mem⟩
      · intro _ m _ p _ left
        simp only [Call.remains, e, Bool.or_false] at left
        rw [Call.remains, Bool.or_eq_true]
        exact .inl left
    case record =>
      refine h.tail hc e rfl ⟨rfl, rfl, rfl, rfl, rfl⟩ ⟨rfl, rfl, rfl, rfl, rfl⟩ (fun fills => ?_) .inl (fun _ _ _ kept => kept)
        rfl
      have same : c.window = s.now := by simpa [keepsOn, e, fills] using ok
      exact same
    case compare =>
      have eq : prog = relistWindow ++ [.writeWant] := of_decide_eq_true next.right
      have off : c.lists = false := (h.calls c hc).before (by simp [e])
      have rests : .setBootstrapped true ∉ c.prog := by simp [e, eq, relistWindow]
      refine h.turns hc rfl ?_ ?_ ?_ rfl ?_
      · split
        · exact ⟨rfl, (h.calls c hc).lists, fun _ => off, fun b mem => by simp at mem⟩
        · exact (h.calls c hc).tail e rfl rfl rfl
      · intro mem
        dsimp only at mem
        split at mem
        · simp at mem
        · exact by simp [e, mem]
      · intro changed mem
        dsimp only
        split
        case isTrue same =>
          refine .inr fun unbroken fills => ?_
          simpa [keepsOn, e, fills, same, unbroken] using ok
        case isFalse => exact .inl ⟨changed, by simpa [e] using mem⟩
      · exact fun on => on.elim (fun on => by cases off.symm.trans on) fun sets => absurd sets rests
    case list part r =>
      refine h.turns hc rfl ?_ ?_ ?_ rfl ?_
      · refine ⟨shaped_phases.trans next.left, (h.calls c hc).lists, fun mem => ?_, fun b mem => ?_⟩
        · exact (h.calls c hc).before (by simpa [e] using mem)
        · exact (h.calls c hc).widens b (by simpa [e] using mem)
      · exact fun mem => by simpa [e] using mem
      · exact fun changed mem => .inl ⟨changed, by simpa [e] using mem⟩
      · intro _ m _ p _ left
        simp only [Call.remains, e, Bool.or_false] at left
        rw [Call.remains, Bool.or_eq_true]
        exact .inl (listsPhase_phases.trans left)
    case phase p r =>
      refine h.turns hc rfl ?_ ?_ ?_ rfl ?_
      · refine ⟨(Bool.and_true _).trans next.left, (h.calls c hc).lists, fun mem => ?_, fun b mem => ?_⟩
        · exact (h.calls c hc).before (by simpa [e] using mem)
        · exact (h.calls c hc).widens b (by simpa [e] using mem)
      · exact fun mem => by simpa [e] using mem
      · exact fun changed mem => .inl ⟨changed, by simpa [e] using mem⟩
      · intro _ m hm p' hf left
        simp only [Call.remains, e, listsPhase, Bool.or_false, Bool.or_eq_true, decide_eq_true_eq] at left
        simp only [Call.remains, listsPhase, Bool.or_eq_true, Bool.and_eq_true, decide_eq_true_eq]
        refine left.symm.imp_right fun eq => ⟨eq, ?_⟩
        exact List.mem_map.mpr ⟨m, List.mem_filter.mpr ⟨hm, eq ▸ hf⟩, rfl⟩
    case pages p r =>
      have fit (fills : s.fills = true) : s.fits c.headersFrom = true := by simpa [keepsOn, e, fills] using ok
      refine h.goes hc rfl ⟨rfl, rfl, rfl, rfl, rfl⟩ (fun _ => rfl) .inl (fun _ _ _ kept => Db.keeps_enqueue kept)
        (fun _ mem => List.mem_cons_of_mem _ mem) ?_ ?_ ?_ ?_ rfl ?_
      · intro fills hf mem
        rcases List.mem_cons.mp mem with rfl | mem
        · exact .inr (fit fills)
        · exact .inl mem
      · split
        · exact (h.calls c hc).tail e rfl rfl rfl
        · exact ⟨e ▸ shape, (h.calls c hc).lists, e ▸ (h.calls c hc).before, e ▸ (h.calls c hc).widens⟩
      · intro mem
        dsimp only at mem
        split at mem
        · simp [e, mem]
        · simpa [e] using mem
      · intro changed mem
        refine .inl ⟨changed, ?_⟩
        dsimp only
        split
        · simpa [e] using mem
        · simpa [e] using mem
      · intro _ m hm p' hf left
        simp only [Call.remains, e, listsPhase, Bool.or_eq_true, Bool.and_eq_true, decide_eq_true_eq] at left
        rcases left with later | ⟨rfl, mem⟩
        · refine .inl ?_
          split <;> simp [Call.remains, listsPhase, later]
        · rw [← List.take_append_drop answer c.ids, List.mem_append] at mem
          rcases mem with taken | left
          · exact .inr ⟨List.mem_cons_self, fit, Db.keeps_enqueue_new taken⟩
          · refine .inl ?_
            split
            case isTrue none_ => cases none_ ▸ left
            case isFalse      => simp [Call.remains, left]
    case clear =>
      have eq : prog = relistWindow.tail ∨ prog = relistWindow.tail ++ [.writeWant] := of_decide_eq_true next.right
      split
      case isTrue boot =>
        refine h.clear hc e rfl rfl rfl rfl ?_ ?_ rfl rfl rfl rfl rfl rfl rfl fun _ _ less kept => Db.keeps_clear kept less
        · rcases eq with rfl | rfl <;> simp [relistWindow]
        · intro now p w hp
          rcases eq with rfl | rfl <;> simpa [relistWindow, listsPhase] using hp
      case isFalse boot =>
        have off : s.fills = false := by simpa [keepsOn, e, boot] using ok
        refine h.unfilled off ?_ (by simp) rfl rfl rfl rfl
        refine ⟨?_, (h.calls c hc).lists, fun mem => by simp at mem, fun b mem => by simp at mem⟩
        rcases eq with rfl | rfl <;> rfl
    case setBootstrapped on =>
      obtain ⟨rfl, rfl⟩ : on = true ∧ prog = [] := of_decide_eq_true next.right
      have unbroken : s.broken = false := by simpa [keepsOn, e] using ok
      exact h.setBootstrapped hc e rfl rfl rfl rfl unbroken rfl rfl rfl rfl rfl rfl rfl fun _ _ => rfl
    case writeWant =>
      refine h.tail hc e rfl ⟨rfl, rfl, rfl, rfl, rfl⟩ ⟨rfl, rfl, rfl, rfl, rfl⟩ (fun _ => rfl) (fun on => ?_)
        (fun _ _ _ kept => kept) rfl
      rcases Bool.or_eq_true_iff.mp on with on | boot
      · exact .inl on
      · exact .inr ⟨by simpa [keepsOn, e, boot] using ok, boot⟩
    case store =>
      exact h.tail hc e rfl ⟨rfl, rfl, rfl, rfl, rfl⟩ ⟨rfl, rfl, rfl, rfl, rfl⟩ (fun _ => rfl) .inl
        (fun m hm _ kept => Db.keeps_stored kept (known m hm)) rfl
    case fetchHeaders =>
      have eq : prog = [.waits, .promote] := of_decide_eq_true next.right
      have none_ (now p id) : c.remains now p id = false := by simp [Call.remains, e, eq, listsPhase]
      have rests : .setBootstrapped true ∉ c.prog := by simp [e, eq]
      have clears (_ : c.changed = true) : .clear ∉ c.prog := by simp [e, eq]
      split
      case isTrue =>
        exact h.finish hc (.inr none_) rests clears ⟨rfl, rfl, rfl, rfl, rfl⟩ ⟨rfl, rfl, rfl, rfl, rfl⟩ rfl rfl rfl
          fun m hm _ kept => Db.keeps_headers kept (known m hm)
      case isFalse =>
        split
        · exact h.finish hc (.inr none_) rests clears ⟨rfl, rfl, rfl, rfl, rfl⟩ .refl rfl rfl rfl fun _ _ _ kept => kept
        · exact h.skip hc e rfl ⟨rfl, rfl, rfl, rfl, rfl⟩
    case waits =>
      have eq : prog = [.promote] := of_decide_eq_true next.right
      have none_ (now p id) : c.remains now p id = false := by simp [Call.remains, e, eq, listsPhase]
      split
      · exact h.finish hc (.inr none_) (by simp [e, eq]) (by simp [e, eq]) ⟨rfl, rfl, rfl, rfl, rfl⟩ .refl rfl rfl rfl
          fun _ _ _ kept => kept
      · exact h.skip hc e rfl ⟨rfl, rfl, rfl, rfl, rfl⟩
    case promote =>
      exact h.tail hc e rfl ⟨rfl, rfl, rfl, rfl, rfl⟩ ⟨rfl, rfl, rfl, rfl, rfl⟩ (fun _ => rfl) .inl
        (fun _ _ _ kept => Db.keeps_promote kept) rfl
    all_goals exact h.tail hc e rfl ⟨rfl, rfl, rfl, rfl, rfl⟩ ⟨rfl, rfl, rfl, rfl, rfl⟩ (fun _ => rfl) .inl (fun _ _ _ kept => kept) rfl

-- A call that has changed nothing yet.
theorem Whole.begin (h : s.Whole found) {mk : Nat → Call} {hmk : ∀ n, (mk n).id = n}
    (changed : ∀ n, (mk n).changed = false) (lists : ∀ n, (mk n).lists = false) (shape : ∀ n, shaped (mk n).prog = true)
    (sets : ∀ n, .setBootstrapped true ∉ (mk n).prog) : (s.start mk hmk).Whole found :=
  h.start (fun n => ⟨shape n, fun on => (nomatch (lists n).symm.trans on), fun _ => lists n, fun _ _ => changed n⟩) sets

theorem Whole.step {a : Action} (h : s.Whole found) (ok : s.keeping found a = true) (hs : s.step found a = some s') :
    s'.Whole found := by
  cases a <;> simp only [State.step] at hs
  case refetchAll | startResync | changed | urgent | opened => cases ok
  case bootstrapListRest =>
    injection hs with hs
    subst hs
    exact h.listRest ok
  case bootstrapPrepare | setWindow | setBodyWindow | loadEveryHeader | ensureTiers =>
    injection hs with hs
    subst hs
    refine h.begin (fun _ => rfl) (fun _ => rfl) (fun _ => rfl) fun _ => ?_
    simp [Download.bootstrapPrepare, Download.setWindow, Download.setBodyWindow, Download.loadEveryHeader,
      Download.ensureTiers, relistWindow]
  case loadEveryHeaderStored =>
    obtain ⟨u, hu, hs⟩ := Option.bind_eq_some_iff.mp hs
    injection hs with hs
    subst hs
    have off : s.syncing = false := by simpa [keeping] using ok
    exact h.stored off (widenStored_widened hu) rfl rfl rfl rfl rfl fun _ _ => rfl
  case loadWaitingHeaders =>
    injection hs with hs
    subst hs
    exact h.of_keeps rfl rfl rfl rfl rfl rfl rfl rfl fun _ _ kept => Db.keeps_promote kept
  case backfillBatch | headersPass =>
    split at hs
    case isFalse => cases hs
    case isTrue  =>
      injection hs with hs
      subst hs
      exact h.begin (fun _ => rfl) (fun _ => rfl) (fun _ => rfl) fun _ => by simp
  case goOn call answer =>
    obtain ⟨c, hc, rfl⟩ := Option.map_eq_some_iff.mp hs
    refine h.exec (Table.find?_mem hc) ?_
    simpa [keeping, hc] using ok
  case fail call =>
    obtain ⟨c, hc, rfl⟩ := Option.map_eq_some_iff.mp hs
    have mem : c ∈ s.calls := Table.find?_mem hc
    have ok (on : s.syncing = true) : c.owes = false := by simpa [keeping, hc, on] using ok
    refine h.ends rfl rfl rfl (fun _ hd => (Table.mem_delete.mp hd).left) (fun on => ⟨on, ?_⟩) fun unbroken => ?_
    · exact Bool.or_eq_false_iff.mpr ⟨(h.sync on).left, ok on⟩
    · obtain ⟨unbroken, owes⟩ := Bool.or_eq_false_iff.mp unbroken
      refine ⟨unbroken, fun d hd gone => ?_⟩
      have eq : d.id = c.id := by simpa [State.drop, hd] using gone
      cases s.calls.eq_of_key_eq hd mem eq
      exact owes
  case restart =>
    injection hs with hs
    subst hs
    refine h.ends rfl rfl rfl (fun _ hc => absurd hc Table.not_mem_empty) (fun on => Bool.noConfusion on) fun unbroken => ?_
    obtain ⟨unbroken, owes⟩ := Bool.or_eq_false_iff.mp unbroken
    refine ⟨unbroken, fun d hd _ => ?_⟩
    simpa using List.any_eq_false.mp owes d hd
  case setCheap =>
    injection hs with hs
    subst hs
    exact h.of_keeps rfl rfl rfl rfl rfl rfl rfl rfl fun _ _ kept => kept

end State

-- A new account.
def account (found : Phase → Mail → Bool) : System State Action where
  Start s := (engine found).Start s ∧ s.db.bootstrapped = false ∧ s.syncing = false
  step s  := s.step found

-- In every run all of whose steps meet the condition, no mail of the window is forgotten.
theorem State.reachable_remembered {found : Phase → Mail → Bool} {s : State}
    (h : (account found).Reachable (fun s a => s.keeping found a = true) s) : s.Kept found := by
  have whole : s.Whole found := by
    refine h.invariant (fun s start => ?_) fun s a s' whole ok hs => whole.step ok hs
    obtain ⟨⟨calls, _⟩, boot, syncing⟩ := start
    have off : s.fills = false := by
      simp only [State.fills, boot, calls]
      rfl
    refine ⟨?_, ?_, ?_, ?_, ?_, ?_⟩
    · exact fun c hc => by simp [calls] at hc
    · intro on
      cases syncing.symm.trans on
    · intro on
      cases boot.symm.trans on
    · exact fun c hc => by simp [calls] at hc
    · intro _ on
      cases off.symm.trans on
    · intro _ on
      cases off.symm.trans on
  exact whole.kept

section Examples

def newBox (cheap : Bool) : State where
  db    := { window := some .year }
  mail  := yearBox.mail
  cheap := cheap

def prepare : List Action :=
  [.bootstrapPrepare] ++ goOn 1 (List.replicate 11 9)

def listRest : List Action :=
  [.bootstrapListRest] ++ goOn 1 (List.replicate 17 9)

-- A window change is broken off after it cleared the queue.
def brokenOff : List Action :=
  prepare ++ listRest ++ [.setWindow .everything] ++ goOn 1 [0, 0] ++ [.restart, .ensureTiers] ++
    goOn 1 (List.replicate 6 0)

-- The window changes when the rest has been listed and is not recorded to be.
def cleared : List Action :=
  prepare ++ [.bootstrapListRest] ++ goOn 1 (List.replicate 15 9) ++ [.setWindow .everything] ++ goOn 2 [0, 0, 0] ++
    goOn 1 [0, 0]

-- The rest is listed under another tiering than is recorded, to which a change of the body window goes back.
def mistaken : List Action :=
  prepare ++ [.setCheap true] ++ listRest ++ [.setCheap false, .setBodyWindow .year] ++ goOn 1 (List.replicate 7 0)

-- A start lists again when headers are not cheap any more, at the second try.
theorem reachable_remembered_relisted : ∃ s : State, s.Kept byAge ∧ s.syncing = true ∧ s.quiet = true ∧
    s.db.window = some .everything ∧ s.db.keeps 5 "old" = true := by
  have run : ((account byAge).run (fun s a => s.keeping byAge a = true) (newBox true)
      (prepare ++ listRest ++ [.setWindow .everything] ++ goOn 1 (List.replicate 15 9) ++
        [.setCheap false, .restart, .ensureTiers] ++ goOn 1 (List.replicate 5 9) ++ [.restart, .ensureTiers] ++
          goOn 1 (List.replicate 19 9))).any fun s =>
            s.syncing = true ∧ s.quiet = true ∧ s.db.window = some .everything ∧ s.db.keeps 5 "old" = true := by decide
  obtain ⟨s, hs, ends⟩ := (Option.any_eq_true _ _).mp run
  exact ⟨s, State.reachable_remembered (.run (.start ⟨⟨rfl, rfl, rfl, rfl⟩, rfl, rfl⟩) hs), of_decide_eq_true ends⟩

-- Runs of a new account that forget a message.
def Forgets (cheap : Bool) (as : List Action) : Prop :=
  ∃ s, (account byAge).run (fun _ _ => True) (newBox cheap) as = some s ∧
    (account byAge).Reachable (fun _ _ => True) s ∧ ¬s.Kept byAge

theorem forgets {cheap : Bool} {as : List Action}
    (h : ((account byAge).run (fun _ _ => True) (newBox cheap) as).any (fun s => s.syncing = true ∧ s.quiet = true ∧
      ∃ m ∈ s.mail.rows, ∃ p ∈ phasesFor (s.db.window.getD .halfYear), byAge p m = true ∧
        s.db.keeps (s.tiered p) m.id = false) = true) : Forgets cheap as := by
  obtain ⟨s, hs, lost⟩ := (Option.any_eq_true _ _).mp h
  obtain ⟨syncing, quiet, m, hm, p, hp, hf, lost⟩ := of_decide_eq_true lost
  refine ⟨s, hs, .run (.start ⟨⟨rfl, rfl, rfl, rfl⟩, rfl, rfl⟩) hs, fun kept => ?_⟩
  exact nomatch lost.symm.trans (kept syncing quiet m hm p hp hf).left

theorem forgotten : Forgets true brokenOff ∧ Forgets true cleared ∧ Forgets false mistaken :=
  ⟨forgets (by decide), forgets (by decide), forgets (by decide)⟩

end Examples

end Kaluta.Download
