import Kaluta.CloudReports.Match

-- What the matches of any run are, as long as no report takes the only message that a later one names.
namespace Kaluta.CloudReports

open Guide (Unicode)

section Lists

variable {α : Type u} {β : Type v} {l : List α} {R : α → α → Prop} {a b : α}

theorem mapM_eq_some {f : α → Option β} {g : α → β} (h : ∀ a ∈ l, f a = some (g a)) : l.mapM f = some (l.map g) := by
  induction l
  case nil => rfl
  case cons a l ih =>
    rw [List.mapM_cons, h a List.mem_cons_self, ih fun b hb => h b (List.mem_cons_of_mem a hb)]
    rfl

theorem pairwise_find? {p : α → Bool} (sorted : l.Pairwise R) (h : l.find? p = some a) (mem : b ∈ l) (hb : p b) :
    b = a ∨ R a b := by
  obtain ⟨_, before, after, rfl, none_⟩ := List.find?_eq_some_iff_append.mp h
  rcases List.mem_append.mp mem with mem | mem
  · exact absurd hb (by simpa using none_ b mem)
  · rcases List.mem_cons.mp mem with rfl | mem
    · exact .inl rfl
    · exact .inr (List.rel_of_pairwise_cons (List.pairwise_append.mp sorted).right.left mem)

-- Of a list in order the first of the smallest comes before the others.
theorem pairwise_argmin [DecidableEq α] {f : α → Nat} (sorted : l.Pairwise R) (h : l.argmin f = some a) (mem : b ∈ l)
    (le : f b ≤ f a) : b = a ∨ R a b := by
  have mem' : a ∈ l := List.argmin_mem h
  have le := List.index_of_argmin h mem le
  rcases Nat.eq_or_lt_of_le le with eq | lt
  · exact .inl ((List.idxOf_inj mem').mp eq).symm
  · have := List.pairwise_iff_getElem.mp sorted _ _ (List.idxOf_lt_length_of_mem mem')
      (List.idxOf_lt_length_of_mem mem) lt
    simpa using Or.inr this

end Lists

section Times

variable {t d w : Int}

theorem within : t - w ≤ d ∧ d ≤ t + w ↔ ((d - t).natAbs : Int) ≤ w := by
  omega

theorem i64_sub (h : t.natAbs < RFC3339_END) : i64 (t - MATCH_WINDOW_MS) = some (t - MATCH_WINDOW_MS) := by
  simp only [RFC3339_END] at h
  exact i64_eq (by simp only [MATCH_WINDOW_MS]; omega)

theorem i64_add (h : t.natAbs < RFC3339_END) : i64 (t + MATCH_WINDOW_MS) = some (t + MATCH_WINDOW_MS) := by
  simp only [RFC3339_END] at h
  exact i64_eq (by simp only [MATCH_WINDOW_MS]; omega)

theorem i64_gap (h : ((d - t).natAbs : Int) ≤ MATCH_WINDOW_MS) : i64 (d - t) = some (d - t) := by
  simp only [MATCH_WINDOW_MS] at h
  exact i64_eq (by omega)

theorem i64_natAbs (h : ((d - t).natAbs : Int) ≤ MATCH_WINDOW_MS) : i64 (d - t).natAbs = some ↑(d - t).natAbs := by
  simp only [MATCH_WINDOW_MS] at h
  exact i64_eq (by omega)

theorem i64_since (h : 0 ≤ t ∧ t < 2 ^ 63) : i64 (t - MATCH_FOR_MS) = some (t - MATCH_FOR_MS) :=
  i64_eq (by simp only [MATCH_FOR_MS]; omega)

end Times

namespace Report

def Names (r : Report) (m : Message) : Prop :=
  r.named ≠ none ∧ m.rfc822MessageId = r.named

instance : DecidableRel Names :=
  fun _ _ => inferInstanceAs (Decidable (_ ∧ _))

-- How far a message was sent from when the report says.
def gap (r : Report) (m : Message) : Nat :=
  (m.internalDate - r.at').natAbs

-- By recipient, subject and time.
def Fits [Unicode] (r : Report) (m : Message) : Prop :=
  r.gap m ≤ MATCH_WINDOW_MS ∧ subjectKey m.subject = subjectKey r.subject ∧ ∃ p ∈ m.people, p ∈ r.to_.map address

instance [Unicode] : DecidableRel Fits :=
  fun _ _ => inferInstanceAs (Decidable (_ ∧ _))

end Report

namespace Store

def Waits (s : Store) (now : Millis) (r : Report) : Prop :=
  r ∈ s.reports ∧ r.matchedMessageId = none ∧ now - MATCH_FOR_MS ≤ r.receivedAt

-- A sent message that no report is matched to.
def Free (s : Store) (m : Message) : Prop :=
  m ∈ s.messages ∧ m.isSent ∧ ∀ q ∈ s.reports, q.matchedMessageId ≠ some m.gmailId

instance (s : Store) : DecidablePred s.Free :=
  fun m => inferInstanceAs (Decidable (m ∈ s.messages.rows ∧ _ ∧ ∀ q ∈ s.reports.rows, _))

variable [Unicode]

-- A message that the report is matched to: the first free one that it names, or where there is none the closest
-- free one that fits.
def Takes (s : Store) (r : Report) (m : Message) : Prop :=
  (s.Free m ∧ r.Names m ∧ ∀ m' ∈ s.messages, s.Free m' → r.Names m' → m.internalDate ≤ m'.internalDate) ∨
  (s.Free m ∧ r.Fits m ∧ (∀ m' ∈ s.messages, s.Free m' → ¬r.Names m') ∧
    ∀ m' ∈ s.messages, s.Free m' → r.Fits m' →
      r.gap m < r.gap m' ∨ (r.gap m = r.gap m' ∧ m.internalDate ≤ m'.internalDate))

instance (s : Store) : DecidableRel s.Takes :=
  fun _ _ => inferInstanceAs (Decidable
    ((_ ∧ _ ∧ ∀ m' ∈ s.messages.rows, _) ∨ (_ ∧ _ ∧ (∀ m' ∈ s.messages.rows, _) ∧ ∀ m' ∈ s.messages.rows, _)))

end Store

section Runs

variable [Unicode]

-- The next report takes no message that a later one names and has no other for.
def Run.Fair (run : Run) : Prop :=
  ∀ r ∈ run.waiting.head?, ∀ later ∈ run.waiting.tail, ∀ m ∈ run.matching.store.messages,
    run.matching.store.Takes r m → later.Names m →
      ∃ m' ∈ run.matching.store.messages, run.matching.store.Free m' ∧ later.Names m' ∧ m' ≠ m

instance : DecidablePred Run.Fair :=
  fun run => inferInstanceAs (Decidable
    (∀ r ∈ run.waiting.head?, ∀ later ∈ run.waiting.tail, ∀ m ∈ run.matching.store.messages.rows,
      _ → _ → ∃ m' ∈ run.matching.store.messages.rows, _))

-- The condition on a turn of a run.
def Fair (s : State) : Action → Prop
  | .turn => ∀ run ∈ s.run, run.Fair
  | _     => True

instance : DecidableRel Fair
  | _, .turn       => inferInstanceAs (Decidable (∀ run ∈ _, _))
  | _, .reported _ => inferInstanceAs (Decidable True)
  | _, .received _ => inferInstanceAs (Decidable True)
  | _, .composed _ => inferInstanceAs (Decidable True)
  | _, .start _    => inferInstanceAs (Decidable True)
  | _, .commit     => inferInstanceAs (Decidable True)

-- What a run leaves of the reports that waited for it.
structure Done.Sound (d : Done) : Prop where
  changed : ∀ q ∈ d.after.reports, q ∈ d.before.reports ∨
    ∃ r m method, d.before.Waits d.now r ∧ m ∈ d.before.messages ∧ q = r.linked m method d.now
  -- A free message with the Message-ID is found by it.
  named   : ∀ r m, d.before.Waits d.now r → d.before.Free m → r.Names m →
    ∃ m' ∈ d.before.messages, m'.isSent ∧ r.Names m' ∧ r.linked m' .messageId d.now ∈ d.after.reports
  -- Nothing that was sent closer to when the report says was free at its turn.
  textual : ∀ r m, d.before.Waits d.now r → m ∈ d.before.messages →
    r.linked m .recipientSubject d.now ∈ d.after.reports → m.isSent ∧ r.Fits m ∧
      ∀ m' ∈ d.before.messages, m'.isSent → r.Fits m' →
        (∀ q ∈ d.after.reports, q.matchedMessageId = some m'.gmailId → q ∉ d.before.reports ∧ r.Le q) →
          r.gap m ≤ r.gap m'

def Store.Single (s : Store) : Prop :=
  ∀ r ∈ s.reports, ∀ r' ∈ s.reports, ∀ i, r.matchedMessageId = some i → r'.matchedMessageId = some i → r = r'

-- What matching is for.
structure Correct (s : State) : Prop where
  single : s.store.Single
  runs   : ∀ d ∈ s.done, d.Sound
  kept   : ∀ d ∈ s.done, ∀ r ∈ d.after.reports, r.matchedMessageId ≠ none → r ∈ s.store.reports
  panics : s.panics = 0

namespace Matching

variable {k k' : Matching} {r : Report} {m : Message}

-- The ids in use are those of the messages that a report is matched to.
def Accounted (k : Matching) : Prop :=
  ∀ i, i ∈ k.used ↔ ∃ q ∈ k.store.reports, q.matchedMessageId = some i

omit [Unicode] in
theorem Accounted.free (h : k.Accounted) :
    k.store.Free m ↔ m ∈ k.store.messages ∧ m.isSent ∧ m.gmailId ∉ k.used := by
  rw [Store.Free, h]
  simp

omit [Unicode] in
theorem mem_sentRows {s : Store} {asked : Message → Bool} :
    m ∈ s.sentRows asked ↔ m ∈ s.messages ∧ m.isSent ∧ asked m := by
  simp [Store.sentRows, Table.mem_rows]

omit [Unicode] in
theorem sentRows_sorted (s : Store) (asked : Message → Bool) :
    (s.sentRows asked).Pairwise (·.internalDate ≤ ·.internalDate) := by
  have := Std.Total.mk (r := fun m m' : Message => m.internalDate ≤ m'.internalDate) fun _ _ => le_total _ _
  have := IsTrans.mk (r := fun m m' : Message => m.internalDate ≤ m'.internalDate) fun _ _ _ => le_trans
  exact List.pairwise_insertionSort _ _

omit [Unicode] in
theorem mem_byId {mid : String} (h : k.Accounted) (named : r.named = some mid) :
    m ∈ k.store.sentRows (·.rfc822MessageId = some mid) ∧ m.gmailId ∉ k.used ↔ k.store.Free m ∧ r.Names m := by
  rw [mem_sentRows, h.free, Report.Names, named, decide_eq_true_eq]
  simp only [ne_eq, reduceCtorEq, not_false_eq_true, true_and]
  tauto

omit [Unicode] in
theorem byId_none (h : k.Accounted) (none_ : k.byId r = none) : ¬(k.store.Free m ∧ r.Names m) := by
  intro free
  cases named : r.named
  case none => exact free.right.left named
  case some mid =>
    have ⟨mem, unused⟩ := (mem_byId h named).mpr free
    rw [byId, named, Option.bind_some, List.find?_eq_none] at none_
    exact none_ m mem (by simpa using unused)

omit [Unicode] in
theorem byId_some (h : k.Accounted) (is : k.byId r = some m) :
    k.store.Free m ∧ r.Names m ∧
      ∀ m' ∈ k.store.messages, k.store.Free m' → r.Names m' → m.internalDate ≤ m'.internalDate := by
  cases named : r.named
  case none => rw [byId, named] at is; cases is
  case some mid =>
    rw [byId, named, Option.bind_some] at is
    have unused : m.gmailId ∉ k.used := by simpa using List.find?_some is
    have ⟨free, names⟩ := (mem_byId h named).mp ⟨List.mem_of_find?_eq_some is, unused⟩
    refine ⟨free, names, fun m' _ free' names' => ?_⟩
    have ⟨mem', unused'⟩ := (mem_byId h named).mpr ⟨free', names'⟩
    rcases pairwise_find? (sentRows_sorted _ _) is mem' (by simpa using unused') with rfl | le
    · exact le_rfl
    · exact le

-- The free messages that fit, by date.
def fitting (k : Matching) (r : Report) : List Message :=
  (k.store.sentRows fun m => r.at' - MATCH_WINDOW_MS ≤ m.internalDate ∧ m.internalDate ≤ r.at' + MATCH_WINDOW_MS).filter
    fun m => m.gmailId ∉ k.used ∧ subjectKey m.subject = subjectKey r.subject ∧ m.people.any (· ∈ r.to_.map address)

theorem mem_fitting (h : k.Accounted) : m ∈ k.fitting r ↔ k.store.Free m ∧ r.Fits m := by
  have near : (r.at' - MATCH_WINDOW_MS ≤ m.internalDate ∧ m.internalDate ≤ r.at' + MATCH_WINDOW_MS) ↔
      r.gap m ≤ MATCH_WINDOW_MS :=
    within
  rw [fitting, List.mem_filter, mem_sentRows, h.free, Report.Fits]
  simp only [decide_eq_true_eq, near, List.any_eq_true]
  tauto

theorem bySubject_eq (times : r.at'.natAbs < RFC3339_END) :
    k.bySubject r = some ((((k.fitting r).map fun m => (m, r.gap m)).argmin (·.2)).map (·.1)) := by
  have first : i64 (r.at' - MATCH_WINDOW_MS) = some (r.at' - MATCH_WINDOW_MS) := i64_sub times
  have last : i64 (r.at' + MATCH_WINDOW_MS) = some (r.at' + MATCH_WINDOW_MS) := i64_add times
  have gaps : ∀ m ∈ k.fitting r, (do
      let gap ← i64 (m.internalDate - r.at')
      return (m, (← i64 gap.natAbs).toNat)) = some (m, r.gap m) := by
    intro m mem
    have near := within.mp (of_decide_eq_true (mem_sentRows.mp (List.mem_of_mem_filter mem)).right.right)
    rw [i64_gap near, Option.bind_eq_bind, Option.bind_some, i64_natAbs near]
    rfl
  simp only [bySubject, first, last, Option.bind_eq_bind, Option.bind_some]
  exact (congrArg (Option.bind · _) (mapM_eq_some gaps)).trans rfl

theorem bySubject_some (h : k.Accounted) (times : r.at'.natAbs < RFC3339_END) (is : k.bySubject r = some (some m)) :
    k.store.Free m ∧ r.Fits m ∧ ∀ m' ∈ k.store.messages, k.store.Free m' → r.Fits m' →
      r.gap m < r.gap m' ∨ (r.gap m = r.gap m' ∧ m.internalDate ≤ m'.internalDate) := by
  rw [bySubject_eq times, Option.some_inj, Option.map_eq_some_iff] at is
  obtain ⟨e, is, rfl⟩ := is
  have sorted : ((k.fitting r).map fun m => (m, r.gap m)).Pairwise
      fun e e' => e.1.internalDate ≤ e'.1.internalDate :=
    List.pairwise_map.mpr ((sentRows_sorted _ _).filter _)
  obtain ⟨m, mem, rfl⟩ := List.mem_map.mp (List.argmin_mem is)
  have ⟨free, fits⟩ := (mem_fitting h).mp mem
  refine ⟨free, fits, fun m' _ free' fits' => ?_⟩
  have mem' := List.mem_map_of_mem (f := fun m => (m, r.gap m)) ((mem_fitting h).mpr ⟨free', fits'⟩)
  have least : r.gap m ≤ r.gap m' := List.le_of_mem_argmin (f := Prod.snd) mem' is
  rcases lt_or_eq_of_le least with lt | eq
  · exact .inl lt
  · refine .inr ⟨eq, ?_⟩
    rcases pairwise_argmin sorted is mem' eq.ge with same | le
    · exact (congrArg (·.1.internalDate) same).ge
    · exact le

-- What the lookup for a report gives, whose times can be written down.
inductive Found (k : Matching) (r : Report) : Option (Message × Method) → Prop
  | none : (∀ m, ¬(k.store.Free m ∧ r.Names m)) → Found k r none
  | named {m : Message} : k.store.Free m → r.Names m → k.store.Takes r m → Found k r (some (m, .messageId))
  | textual {m : Message} : (∀ m, ¬(k.store.Free m ∧ r.Names m)) → k.store.Free m → r.Fits m →
    (∀ m' ∈ k.store.messages, k.store.Free m' → r.Fits m' → r.gap m ≤ r.gap m') → k.store.Takes r m →
    Found k r (some (m, .recipientSubject))

theorem found_spec (h : k.Accounted) (times : r.at'.natAbs < RFC3339_END) :
    ∃ found, k.found r = some found ∧ Found k r found := by
  rw [found]
  cases byId : k.byId r
  case some m =>
    have ⟨free, names, first⟩ := byId_some h byId
    exact ⟨_, rfl, .named free names (.inl ⟨free, names, first⟩)⟩
  case none =>
    have unnamed : ∀ m, ¬(k.store.Free m ∧ r.Names m) := fun m => byId_none h byId
    have eq := bySubject_eq (k := k) times
    cases is : ((k.fitting r).map fun m => (m, r.gap m)).argmin (·.2)
    case none => exact ⟨none, by simp [eq, is], .none unnamed⟩
    case some e =>
      have ⟨free, fits, closest⟩ := bySubject_some (m := e.1) h times (by simp [eq, is])
      refine ⟨some (e.1, .recipientSubject), by simp [eq, is], .textual unnamed free fits ?_ (.inr ?_)⟩
      · exact fun m' mem free' fits' => (closest m' mem free' fits').elim le_of_lt (·.left.le)
      · exact ⟨free, fits, fun m _ free names => unnamed m ⟨free, names⟩, closest⟩

end Matching

section Order

variable {r r' r₁ : Report} {m : Message} {method : Method} {now : Millis}

omit [Unicode] in
theorem Report.Le.antisymm (h : r.Le r') (h' : r'.Le r) : r.id = r'.id := by
  rcases h with lt | ⟨eq, le⟩ <;> rcases h' with lt' | ⟨eq', le'⟩
  · exact absurd lt lt'.not_gt
  · exact absurd eq' lt.ne'
  · exact absurd eq lt'.ne'
  · exact le_antisymm le le'

omit [Unicode] in
theorem Report.le_total (r r' : Report) : r.Le r' ∨ r'.Le r := by
  rcases lt_trichotomy r.at' r'.at' with lt | eq | lt
  · exact .inl (.inl lt)
  · exact (Nat.le_total r.id r'.id).imp (fun le => .inr ⟨eq, le⟩) fun le => .inr ⟨eq.symm, le⟩
  · exact .inr (.inl lt)

omit [Unicode] in
theorem Report.Le.trans (h : r.Le r') (h' : r'.Le r₁) : r.Le r₁ := by
  rcases h with lt | ⟨eq, le⟩ <;> rcases h' with lt' | ⟨eq', le'⟩
  · exact .inl (lt.trans lt')
  · exact .inl (lt.trans_eq eq')
  · exact .inl (eq.trans_lt lt')
  · exact .inr ⟨eq.trans eq', le.trans le'⟩

omit [Unicode] in
theorem Store.waiting_spec {s : Store} {waiting : List Report} (h : s.waiting now = some waiting) :
    (∀ r, r ∈ waiting ↔ s.Waits now r) ∧ waiting.Pairwise fun r r' => r.Le r' ∧ r.id ≠ r'.id := by
  have total := Std.Total.mk (r := Report.Le) Report.le_total
  have trans_ := IsTrans.mk (r := Report.Le) fun _ _ _ => Report.Le.trans
  obtain ⟨since, eq, h⟩ := Option.bind_eq_some_iff.mp h
  have : since = now - MATCH_FOR_MS := by
    rw [i64] at eq
    split at eq <;> cases eq
    rfl
  subst this
  cases h
  constructor
  · intro r
    rw [List.mem_insertionSort, List.mem_filter, Table.mem_rows, Store.Waits, decide_eq_true_eq]
  · have nodup (p) : ((s.reports.rows.filter p).insertionSort Report.Le).Pairwise fun r r' => r.id ≠ r'.id :=
      List.pairwise_map.mp ((((List.perm_insertionSort _ _).map _).nodup_iff).mpr
        ((List.filter_sublist.map _).nodup s.reports.nodup))
    exact (List.pairwise_insertionSort _ _).and (nodup _)

omit [Unicode] in
theorem Store.waiting_isSome (s : Store) (h : 0 ≤ now ∧ now < 2 ^ 63) : ∃ waiting, s.waiting now = some waiting := by
  have : i64 (now - MATCH_FOR_MS) = some (now - MATCH_FOR_MS) := i64_since h
  exact ⟨_, by rw [Store.waiting, this]; rfl⟩

omit [Unicode] in
-- In a table that has the report, its match changes nothing else.
theorem Store.mem_link {s : Store} {q : Report} (mem : r ∈ s.reports) :
    q ∈ (s.link r m method now).reports ↔ (q ∈ s.reports ∧ q.id ≠ r.id) ∨ q = r.linked m method now := by
  have same : (∃ r' ∈ s.reports, decide (r'.id = r.id) ∧ r'.linked m method now = q) ↔ q = r.linked m method now := by
    constructor
    · rintro ⟨r', mem', same, rfl⟩
      rw [Table.eq_of_key_eq mem' mem (of_decide_eq_true same)]
    · rintro rfl
      exact ⟨r, mem, decide_eq_true rfl, rfl⟩
  rw [← same, ne_eq, ← decide_eq_false_iff_not]
  exact @Table.mem_update _ _ Report.id s.reports q (·.id = r.id) (·.linked m method now) fun _ => rfl

end Order

-- How far a run has come: those looked at are done, in order, and all others are as they were.
structure Progress (s : Store) (done : List Report) (run : Run) : Prop where
  all       : ∀ r, r ∈ done ++ run.waiting ↔ s.Waits run.now r
  sorted    : (done ++ run.waiting).Pairwise fun r r' => r.Le r' ∧ r.id ≠ r'.id
  messages  : run.matching.store.messages = s.messages
  accounted : run.matching.Accounted
  single    : run.matching.store.Single
  kept      : ∀ q ∈ s.reports, q.matchedMessageId ≠ none → q ∈ run.matching.store.reports
  left      : ∀ r ∈ run.waiting, r ∈ run.matching.store.reports
  changed   : ∀ q ∈ run.matching.store.reports, q ∈ s.reports ∨
    ∃ r ∈ done, ∃ m ∈ s.messages, ∃ method, q = r.linked m method run.now
  named     : ∀ r ∈ done, ∀ m, s.Free m → r.Names m → ∃ m' ∈ s.messages, m'.isSent ∧ r.Names m' ∧
    r.linked m' .messageId run.now ∈ run.matching.store.reports
  -- What a waiting report names is still free for it.
  open'     : ∀ r ∈ run.waiting, ∀ m, s.Free m → r.Names m →
    ∃ m' ∈ s.messages, run.matching.store.Free m' ∧ r.Names m'
  textual   : ∀ r ∈ done, ∀ m ∈ s.messages, r.linked m .recipientSubject run.now ∈ run.matching.store.reports →
    m.isSent ∧ r.Fits m ∧ ∀ m' ∈ s.messages, m'.isSent → r.Fits m' →
      (∀ q ∈ run.matching.store.reports, q.matchedMessageId = some m'.gmailId → q ∉ s.reports ∧ r.Le q) →
        r.gap m ≤ r.gap m'

namespace Progress

variable {s : Store} {now : Millis} {done waiting : List Report} {r : Report} {k k' : Matching}

theorem unmatched (h : Progress s done ⟨now, r :: waiting, k⟩) : r.matchedMessageId = none :=
  ((h.all r).mp (List.mem_append_right _ List.mem_cons_self)).right.left

-- A report that was looked at before is another one and comes first.
theorem earlier (h : Progress s done ⟨now, r :: waiting, k⟩) {r₁ : Report} (mem : r₁ ∈ done) : r₁.Le r ∧ r₁.id ≠ r.id :=
  (List.pairwise_append.mp h.sorted).right.right r₁ mem r List.mem_cons_self

theorem later (h : Progress s done ⟨now, r :: waiting, k⟩) {r₁ : Report} (mem : r₁ ∈ waiting) : r₁.id ≠ r.id :=
  ((List.rel_of_pairwise_cons (List.pairwise_append.mp h.sorted).right.left mem).right).symm

theorem skip (h : Progress s done ⟨now, r :: waiting, k⟩) (unnamed : ∀ m, ¬(k.store.Free m ∧ r.Names m)) :
    Progress s (done ++ [r]) ⟨now, waiting, k⟩ where
  all       := by simpa using h.all
  sorted    := by simpa using h.sorted
  messages  := h.messages
  accounted := h.accounted
  single    := h.single
  kept      := h.kept
  left      := fun r mem => h.left r (List.mem_cons_of_mem _ mem)
  changed   := fun q mem => (h.changed q mem).imp_right fun ⟨r, mem, rest⟩ => ⟨r, List.mem_append_left _ mem, rest⟩
  named     := by
    intro r₁ mem m free names
    rcases List.mem_append.mp mem with mem | mem
    · exact h.named r₁ mem m free names
    · cases List.mem_singleton.mp mem
      have ⟨m', _, free'⟩ := h.open' r List.mem_cons_self m free names
      exact absurd free' (unnamed m')
  open'     := fun r mem => h.open' r (List.mem_cons_of_mem _ mem)
  textual   := by
    intro r₁ mem m mem' linked
    rcases List.mem_append.mp mem with mem | mem
    · exact h.textual r₁ mem m mem' linked
    · cases List.mem_singleton.mp mem
      have same := Table.eq_of_key_eq linked (h.left r List.mem_cons_self) rfl
      have := h.unmatched
      rw [← same] at this
      cases this

omit [Unicode] in
-- What was free and is not the message matched now stays free.
theorem freeLink {m m' : Message} {method : Method} (here : r ∈ k.store.reports) (mem : m ∈ k.store.messages)
    (free : k.store.Free m') (other : m' ≠ m) : (k.store.link r m method now).Free m' := by
  refine ⟨free.left, free.right.left, fun q memq => ?_⟩
  rcases (Store.mem_link here).mp memq with ⟨memq, _⟩ | rfl
  · exact free.right.right q memq
  · exact fun same => other (Table.eq_of_key_eq free.left mem (Option.some.inj same).symm)

theorem link {m : Message} {method : Method} (h : Progress s done ⟨now, r :: waiting, k⟩) (free : k.store.Free m)
    (taken : ∀ r₁ ∈ waiting, r₁.Names m → ∃ m' ∈ k.store.messages, k.store.Free m' ∧ r₁.Names m' ∧ m' ≠ m)
    (found : method = .messageId ∧ r.Names m ∨ method = .recipientSubject ∧
      (∀ m, ¬(k.store.Free m ∧ r.Names m)) ∧ r.Fits m ∧
      ∀ m' ∈ k.store.messages, k.store.Free m' → r.Fits m' → r.gap m ≤ r.gap m') :
    Progress s (done ++ [r]) ⟨now, waiting,
      { store := k.store.link r m method now, used := m.gmailId :: k.used,
        out := k.out ++ [{ reportId := r.id, messageId := m.gmailId, method }] }⟩ := by
  have here : r ∈ k.store.reports := h.left r List.mem_cons_self
  have sent : m ∈ s.messages := h.messages ▸ free.left
  have stays {q : Report} (mem : q ∈ k.store.reports) (other : q.id ≠ r.id) :
      q ∈ (k.store.link r m method now).reports :=
    (Store.mem_link here).mpr (.inl ⟨mem, other⟩)
  have matched {q : Report} (mem : q ∈ k.store.reports) (is : q.matchedMessageId ≠ none) :
      q ∈ (k.store.link r m method now).reports := by
    refine stays mem fun same => is ?_
    rw [Table.eq_of_key_eq mem here same, h.unmatched]
  have new : r.linked m method now ∈ (k.store.link r m method now).reports :=
    (Store.mem_link here).mpr (.inr rfl)
  refine {
    all := by simpa using h.all
    sorted := by simpa using h.sorted
    messages := h.messages
    kept := fun q mem is => matched (h.kept q mem is) is
    left := fun r₁ mem => stays (h.left r₁ (List.mem_cons_of_mem _ mem)) (h.later mem)
    accounted := ?accounted, single := ?single, changed := ?changed, named := ?named, open' := ?open', textual := ?textual }
  case accounted =>
    intro i
    rw [List.mem_cons, h.accounted]
    constructor
    · rintro (rfl | ⟨q, mem, is⟩)
      · exact ⟨_, new, rfl⟩
      · exact ⟨q, matched mem (by simp [is]), is⟩
    · rintro ⟨q, mem, is⟩
      rcases (Store.mem_link here).mp mem with ⟨mem, _⟩ | rfl
      · exact .inr ⟨q, mem, is⟩
      · exact .inl (Option.some.inj is).symm
  case single =>
    intro q mem q' mem' i is is'
    rcases (Store.mem_link here).mp mem with ⟨mem, _⟩ | rfl <;>
      rcases (Store.mem_link here).mp mem' with ⟨mem', _⟩ | rfl
    · exact h.single q mem q' mem' i is is'
    · cases is'; exact absurd is (free.right.right q mem)
    · cases is; exact absurd is' (free.right.right q' mem')
    · rfl
  case changed =>
    intro q mem
    rcases (Store.mem_link here).mp mem with ⟨mem, _⟩ | rfl
    · exact (h.changed q mem).imp_right fun ⟨r, mem, rest⟩ => ⟨r, List.mem_append_left _ mem, rest⟩
    · exact .inr ⟨r, List.mem_append_right _ (List.mem_singleton_self r), m, sent, method, rfl⟩
  case named =>
    intro r₁ mem m₁ free₁ names₁
    rcases List.mem_append.mp mem with mem | mem
    · obtain ⟨m', mem', is, names, linked⟩ := h.named r₁ mem m₁ free₁ names₁
      exact ⟨m', mem', is, names, stays linked (h.earlier mem).right⟩
    · cases List.mem_singleton.mp mem
      obtain ⟨m', _, free', names'⟩ := h.open' r List.mem_cons_self m₁ free₁ names₁
      rcases found with ⟨rfl, names⟩ | ⟨_, unnamed, _⟩
      · exact ⟨m, sent, free.right.left, names, new⟩
      · exact absurd ⟨free', names'⟩ (unnamed m')
  case open' =>
    intro r₁ mem m₁ free₁ names₁
    obtain ⟨m₂, mem₂, free₂, names₂⟩ := h.open' r₁ (List.mem_cons_of_mem _ mem) m₁ free₁ names₁
    by_cases same : m₂ = m
    case neg => exact ⟨m₂, mem₂, freeLink here free.left free₂ same, names₂⟩
    case pos =>
      obtain ⟨m', mem', free', names', other⟩ := taken r₁ mem (same ▸ names₂)
      exact ⟨m', h.messages ▸ mem', freeLink here free.left free' other, names'⟩
  case textual =>
    intro r₁ mem m₁ mem₁ linked
    rcases List.mem_append.mp mem with mem | mem
    · have linked : r₁.linked m₁ .recipientSubject now ∈ k.store.reports := by
        rcases (Store.mem_link here).mp linked with ⟨linked, _⟩ | same
        · exact linked
        · exact absurd (congrArg Report.id same) (h.earlier mem).right
      obtain ⟨is, fits, closest⟩ := h.textual r₁ mem m₁ mem₁ linked
      refine ⟨is, fits, fun m' mem' is' fits' others => closest m' mem' is' fits' fun q memq isq => ?_⟩
      exact others q (matched memq (by simp [isq])) isq
    · cases List.mem_singleton.mp mem
      have same : r.linked m₁ .recipientSubject now = r.linked m method now :=
        Table.eq_of_key_eq linked new rfl
      have eq : m₁ = m := Table.eq_of_key_eq mem₁ sent (Option.some.inj (congrArg Report.matchedMessageId same))
      have textual : Method.recipientSubject = method := Option.some.inj (congrArg Report.matchMethod same)
      subst eq textual
      rcases found with ⟨nomethod, _⟩ | ⟨_, _, fits, closest⟩
      · cases nomethod
      refine ⟨free.right.left, fits, fun m' mem' is' fits' others => ?_⟩
      refine closest m' (h.messages ▸ mem') ⟨h.messages ▸ mem', is', fun q memq isq => ?_⟩ fits'
      have ⟨new, le⟩ := others q (matched memq (by simp [isq])) isq
      rcases h.changed q memq with old | ⟨r₂, mem₂, m₂, _, method₂, rfl⟩
      · exact new old
      · have ⟨le', other⟩ := h.earlier mem₂
        exact other (le'.antisymm le)

theorem next (h : Progress s done ⟨now, r :: waiting, k⟩) (times : r.at'.natAbs < RFC3339_END)
    (fair : Run.Fair ⟨now, r :: waiting, k⟩) :
    ∃ k', k.next now r = some k' ∧ Progress s (done ++ [r]) ⟨now, waiting, k'⟩ := by
  obtain ⟨found, eq, spec⟩ := Matching.found_spec (r := r) h.accounted times
  have fair {m : Message} (free : k.store.Free m) (takes : k.store.Takes r m) : ∀ r₁ ∈ waiting, r₁.Names m →
      ∃ m' ∈ k.store.messages, k.store.Free m' ∧ r₁.Names m' ∧ m' ≠ m :=
    fun r₁ mem names => fair r rfl r₁ mem m free.left takes names
  rw [Matching.next, eq]
  cases spec
  case none unnamed => exact ⟨_, rfl, h.skip unnamed⟩
  case named m free names takes => exact ⟨_, rfl, h.link free (fair free takes) (.inl ⟨rfl, names⟩)⟩
  case textual m unnamed free fits closest takes =>
    exact ⟨_, rfl, h.link free (fair free takes) (.inr ⟨rfl, unnamed, fits, closest⟩)⟩

theorem start {waiting : List Report} (single : s.Single) (h : s.waiting now = some waiting) :
    Progress s [] ⟨now, waiting, s.start⟩ where
  all       := (Store.waiting_spec h).left
  sorted    := (Store.waiting_spec h).right
  messages  := rfl
  accounted := fun i => by simp [Store.start, Store.matchedIds, Table.mem_rows]
  single    := single
  kept      := fun _ mem _ => mem
  left      := fun r mem => ((Store.waiting_spec h).left r |>.mp mem).left
  changed   := fun _ mem => .inl mem
  named     := fun _ mem => absurd mem List.not_mem_nil
  open'     := fun _ _ m free names => ⟨m, free.left, free, names⟩
  textual   := fun _ mem => absurd mem List.not_mem_nil

theorem sound (h : Progress s done ⟨now, [], k⟩) : Done.Sound ⟨now, s, k.store, k.out⟩ := by
  have all : ∀ r, r ∈ done ↔ s.Waits now r := by simpa using h.all
  constructor
  case changed =>
    intro q mem
    refine (h.changed q mem).imp_right ?_
    rintro ⟨r, mem, m, mem', method, eq⟩
    exact ⟨r, m, method, (all r).mp mem, mem', eq⟩
  case named =>
    intro r m waits free names
    exact h.named r ((all r).mpr waits) m free names
  case textual =>
    intro r m waits mem linked
    exact h.textual r ((all r).mpr waits) m mem linked

end Progress

structure Inv (s : State) : Prop where
  single : s.store.Single
  times  : ∀ r ∈ s.store.reports, r.at'.natAbs < RFC3339_END
  runs   : ∀ d ∈ s.done, d.Sound
  kept   : ∀ d ∈ s.done, ∀ r ∈ d.after.reports, r.matchedMessageId ≠ none → r ∈ s.store.reports
  panics : s.panics = 0
  run    : ∀ run ∈ s.run, ∃ done, Progress s.store done run

namespace Inv

variable {s s' : State} {a : Action}

-- Outside a run: reports are only added, and those are matched to nothing.
theorem grow (h : Inv s) (idle : s.run = none) {store : Store}
    (mem : ∀ r, r ∈ store.reports → r ∈ s.store.reports ∨ r.matchedMessageId = none ∧ r.at'.natAbs < RFC3339_END)
    (sub : ∀ r ∈ s.store.reports, r ∈ store.reports) : Inv { s with store } where
  single := by
    intro r hr r' hr' i is is'
    rcases mem r hr with hr | ⟨none_, _⟩
    · rcases mem r' hr' with hr' | ⟨none_, _⟩
      · exact h.single r hr r' hr' i is is'
      · rw [none_] at is'; cases is'
    · rw [none_] at is; cases is
  times  := fun r hr => (mem r hr).elim (h.times r) (·.right)
  runs   := h.runs
  kept   := fun d hd r hr is => sub r (h.kept d hd r hr is)
  panics := h.panics
  run    := fun run hrun => by rw [show s.run = none from idle] at hrun; cases hrun

theorem step (h : Inv s) (fair : Fair s a) (hs : s.step a = some s') : Inv s' := by
  cases a
  case reported r =>
    rw [State.step] at hs
    split at hs <;> cases hs
    case isTrue idle =>
      refine h.grow (Option.isNone_iff_eq_none.mp idle) (fun q mem => ?_) fun q mem => Table.mem_insertRow.mpr (.inl mem)
      rcases Table.mem_insertRow.mp mem with mem | rfl
      · exact .inl mem
      · refine .inr ⟨rfl, ?_⟩
        cases sent : r.sentAt
        case none   => simpa [Report.at', sent] using r.received
        case some t => simpa [Report.at', sent] using r.sent t sent
  case received m =>
    rw [State.step] at hs
    split at hs <;> cases hs
    case isTrue idle => exact h.grow (Option.isNone_iff_eq_none.mp idle) (fun _ => .inl) fun _ => id
  case composed c =>
    rw [State.step] at hs
    split at hs <;> cases hs
    case isTrue idle => exact h.grow (Option.isNone_iff_eq_none.mp idle) (fun _ => .inl) fun _ => id
  case start now =>
    rw [State.step] at hs
    split at hs
    case isFalse => cases hs
    case isTrue may =>
      obtain ⟨waiting, eq⟩ := s.store.waiting_isSome may.right
      rw [eq] at hs
      cases hs
      exact { h with run := fun run is => by cases is; exact ⟨[], .start h.single eq⟩ }
  case turn =>
    rw [State.step] at hs
    split at hs
    case h_2 => cases hs
    case h_1 now r waiting k is =>
      obtain ⟨done, progress⟩ := h.run _ is
      have waits := (progress.all r).mp (List.mem_append_right _ List.mem_cons_self)
      obtain ⟨k', eq, progress'⟩ := progress.next (h.times r waits.left) (fair _ is)
      rw [eq] at hs
      cases hs
      exact { h with run := fun run is => by cases is; exact ⟨_, progress'⟩ }
  case commit =>
    rw [State.step] at hs
    split at hs
    case h_2 => cases hs
    case h_1 now k is =>
      cases hs
      obtain ⟨done, progress⟩ := h.run _ is
      refine { h with single := progress.single, times := ?times, runs := ?runs, kept := ?kept, run := nofun }
      case times =>
        intro q mem
        rcases progress.changed q mem with old | ⟨r, looked, _, _, _, rfl⟩
        · exact h.times q old
        · exact h.times r ((progress.all r).mp (List.mem_append_left _ looked)).left
      case runs =>
        intro d mem
        rcases List.mem_cons.mp mem with rfl | mem
        · exact progress.sound
        · exact h.runs d mem
      case kept =>
        intro d mem r hr matched
        rcases List.mem_cons.mp mem with rfl | mem
        · exact hr
        · exact progress.kept r (h.kept d mem r hr matched) matched

end Inv

theorem leads_turns {s : State} {now : Millis} {k k' : Matching} {waiting : List Report}
    (h : waiting.foldlM (Matching.next now) k = some k') :
    system.Leads (fun _ _ => True) { s with run := some ⟨now, waiting, k⟩ } { s with run := some ⟨now, [], k'⟩ } := by
  induction waiting generalizing k
  case nil =>
    cases h
    exact .refl
  case cons r waiting ih =>
    rw [List.foldlM_cons] at h
    obtain ⟨k₁, eq, h⟩ := Option.bind_eq_some_iff.mp h
    exact .head ⟨.turn, trivial, by simp only [system, State.step, eq]⟩ (ih h)

-- Matching all the reports at once is to take the turns of a run one by one.
theorem leads_matchReports {s : State} {now : Millis} {store : Store} {out : List Matched} (idle : s.run = none)
    (clock : 0 ≤ now ∧ now < 2 ^ 63) (h : matchReports s.store now = some (store, out)) :
    system.Leads (fun _ _ => True) s { s with store, done := { now, before := s.store, after := store, out } :: s.done } := by
  obtain ⟨waiting, eq, h⟩ := Option.bind_eq_some_iff.mp h
  obtain ⟨k, loop, same⟩ := Option.bind_eq_some_iff.mp h
  cases same
  have turns := leads_turns (s := s) loop
  refine .head ⟨.start now, trivial, ?_⟩ (turns.tail ⟨.commit, trivial, ?_⟩)
  · simp only [system, State.step, idle, Option.isNone_none, clock, and_self, if_true, eq]
  · simp only [system, State.step, idle]

-- Matching is right in every run in which no report takes the only message that a later one names.
theorem State.reachable_correct {s : State} (h : system.Reachable Fair s) : Correct s := by
  have inv : Inv s := by
    refine h.invariant (fun s start => ?_) fun s a s' inv fair hs => inv.step fair hs
    cases start
    have none' {r : Report} (hr : r ∈ (∅ : Table Report (·.id))) : False := Table.not_mem_empty hr
    exact ⟨fun _ hr => (none' hr).elim, fun _ hr => (none' hr).elim, nofun, nofun, rfl, nofun⟩
  exact ⟨inv.single, inv.runs, inv.kept, inv.panics⟩

end Runs

section Rivals

local instance : Unicode :=
  Guide.ascii

-- One message of the account, and two reports that it fits: the second names it.
def plan : Message where
  gmailId         := "18c"
  rfc822MessageId := some "plan@acme.com"
  internalDate    := 60000
  subject         := "Plan"
  isSentByMe      := true
  isDraft         := false
  participants    := [(.to_, "ann@acme.com")]

def unnamed (sentAt : Fin 100000) : NewReport where
  receivedAt := 90000
  messageId  := none
  to_        := ["Ann <ann@acme.com>"]
  subject    := "plan"
  sentAt     := some sentAt
  received   := by decide
  sent       := by rintro _ ⟨⟩; have := sentAt.isLt; rw [RFC3339_END]; omega

def named (sentAt : Fin 100000) : NewReport :=
  { unnamed sentAt with messageId := some "<plan@acme.com>" }

def matching (first second : NewReport) : List Action :=
  [.received plan, .reported first, .reported second, .start 100000, .turn, .turn, .commit]

def empty : State where
  store := { reports := ∅, messages := ∅, compositions := ∅ }

-- Named first, the message goes to the report that names it, and the other one waits.
theorem named_first_correct : ∃ s, system.Reachable Fair s ∧
    (s.done.map (·.out) = [[{ reportId := 1, messageId := "18c", method := .messageId }]]) ∧ Correct s := by
  have ran : (system.run Fair empty (matching (named 1000) (unnamed 2000))).any fun s =>
      s.done.map (·.out) = [[{ reportId := 1, messageId := "18c", method := .messageId }]] := by
    decide +kernel
  obtain ⟨s, run, out⟩ := (Option.any_eq_true _ _).mp ran
  have reachable := System.Reachable.run (.start rfl) run
  exact ⟨s, reachable, of_decide_eq_true out, State.reachable_correct reachable⟩

-- An earlier report that fits takes the message that the later one names.
theorem rival_takes_named : ¬∀ s, system.Reachable (fun _ _ => True) s → Correct s := by
  intro correct
  have ran : (system.run (fun _ _ => True) empty (matching (unnamed 1000) (named 2000))).any fun s =>
      ∃ d ∈ s.done, ∃ r ∈ d.before.reports.rows, ∃ m ∈ d.before.messages.rows,
        (r.matchedMessageId = none ∧ d.now - MATCH_FOR_MS ≤ r.receivedAt) ∧ d.before.Free m ∧ r.Names m ∧
          ∀ m' ∈ d.before.messages.rows, r.linked m' .messageId d.now ∉ d.after.reports.rows := by
    decide +kernel
  obtain ⟨s, run, lost⟩ := (Option.any_eq_true _ _).mp ran
  obtain ⟨d, mem, r, hr, m, _, waits, free, names, lost⟩ := of_decide_eq_true lost
  have sound := (correct s (System.Reachable.run (.start rfl) run)).runs d mem
  obtain ⟨m', mem', _, _, linked⟩ := sound.named r m ⟨hr, waits⟩ free names
  exact lost m' mem' linked

end Rivals

end Kaluta.CloudReports
