import Kaluta.Reports.Delivery

namespace Kaluta.Reports

variable {γ φ : Type} {s s' : State γ φ} {now : Millis} {id upTo after last pages : Nat} {more : Bool}
variable {reports : List (ReportRow γ)} {done : List (Nat × Option (NewReport φ))}

namespace State

-- A report that is stored, or was given up on.
def Kept (s : State γ φ) (id : Nat) : Prop :=
  (∃ kept, s.store.Holds kept ∧ kept.key = (s.account.server, id)) ∨ id ∈ s.givenUp

-- The reports up to this one may go.
def Passed (s : State γ φ) (upTo : Nat) : Prop :=
  upTo < s.db.nextId ∧ ∀ r ∈ s.db.reports, r.mailboxId = s.account.mailboxId → r.id ≤ upTo → s.Kept r.id

-- None behind this one was tried in the pull.
def Tried (s : State γ φ) (upTo : Nat) : Prop :=
  ∀ f ∈ s.failed, f.1 = s.pulls → f.2 ≤ upTo

-- What is known of a page on its way.
structure Listed (s : State γ φ) (after : Nat) (reports : List (ReportRow γ)) : Prop where
  sorted : reports.Pairwise (·.id < ·.id)
  later  : ∀ r ∈ reports, after < r.id
  filed  : ∀ r ∈ reports, r ∈ s.filed ∧ r.id < s.db.nextId ∧ r.mailboxId = s.account.mailboxId
  whole  : ∀ r ∈ s.db.reports, r.mailboxId = s.account.mailboxId → after < r.id →
    ∀ last ∈ reports, r.id ≤ last.id → r ∈ reports

-- What is known of a page that was read.
structure Read (s : State γ φ) (after last : Nat) (read : List (Nat × Option (NewReport φ))) : Prop where
  sorted : read.Pairwise (·.1 < ·.1)
  later  : ∀ e ∈ read, after < e.1 ∧ e.1 ≤ last
  given  : last < s.db.nextId
  whole  : ∀ r ∈ s.db.reports, r.mailboxId = s.account.mailboxId → after < r.id → r.id ≤ last → ∃ e ∈ read, e.1 = r.id
  stored : ∀ e ∈ read, e.2.isSome → s.Kept e.1

def Pulling (s : State γ φ) : Pull γ φ → Prop
  | .asking after _             => s.Passed after ∧ s.Tried after
  | .listed after _ reports _   => s.Passed after ∧ s.Tried after ∧ s.Listed after reports
  | .recorded after _ last read _ => s.Passed after ∧ s.Tried after ∧ s.Read after last read
  | .acking upTo _ last _       => s.Passed upTo ∧ s.Tried last

-- What is known of the server's reports.
structure Waiting (s : State γ φ) : Prop where
  pos          : 0 < s.db.nextId
  ids          : ∀ r ∈ s.filed, 0 < r.id ∧ r.id < s.db.nextId
  apart        : s.filed.Pairwise (·.id ≠ ·.id)
  filed        : ∀ r ∈ s.db.reports, r ∈ s.filed
  placed       : ∀ r ∈ s.filed, r.mailboxId = s.account.mailboxId →
    r ∈ s.db.reports ∨ s.Kept r.id ∨ r ∈ s.dropped ∨ r ∈ s.swept
  counted      : ∀ m, s.db.reportsDropped m = s.dropped.countP (·.mailboxId = m)
  acks         : ∀ u ∈ s.acks, s.Passed u
  acknowledged : ∀ r ∈ s.acknowledged, s.Kept r.id

-- A report as it was filed.
def Genuine (s : State γ φ) (kept : NewReport φ) : Prop :=
  kept.server = s.account.server ∧ ∃ r ∈ s.filed, r.mailboxId = s.account.mailboxId ∧ kept.serverId = r.id ∧
    kept.agentId = r.agentId ∧ kept.receivedAt = r.receivedAt

-- What is known of what the app holds.
structure Booked (s : State γ φ) : Prop where
  single   : s.store.Single
  genuine  : ∀ kept, s.store.Holds kept → s.Genuine kept
  failures : ∀ i, s.failures i ≤ s.failed.countP (·.2 = i)
  givenUp  : ∀ i ∈ s.givenUp, MAX_REPORT_TRIES ≤ s.failed.countP (·.2 = i)
  apart    : s.failed.Nodup
  pulls    : ∀ f ∈ s.failed, f.1 ≤ s.pulls

structure Inv (s : State γ φ) : Prop where
  waiting : s.Waiting
  booked  : s.Booked
  pulling : ∀ p ∈ s.pull, s.Pulling p

-- Reports go from the server at any time, and new ones come behind the others.
structure Onward (s s' : State γ φ) : Prop where
  account : s'.account = s.account
  nextId  : s.db.nextId ≤ s'.db.nextId
  reports : ∀ r ∈ s'.db.reports, r ∈ s.db.reports ∨ s.db.nextId ≤ r.id
  store   : ∀ kept, s.store.Holds kept → s'.store.Holds kept
  givenUp : s.givenUp ⊆ s'.givenUp
  filed   : s.filed ⊆ s'.filed

namespace Onward

theorem kept (h : Onward s s') (hk : s.Kept id) : s'.Kept id := by
  obtain ⟨kept, held, key⟩ | given := hk
  · exact .inl ⟨kept, h.store kept held, h.account ▸ key⟩
  · exact .inr (h.givenUp given)

theorem passed (h : Onward s s') (hp : s.Passed upTo) : s'.Passed upTo := by
  refine ⟨hp.left.trans_le h.nextId, fun r mem ours le => h.kept ?_⟩
  obtain mem | new := h.reports r mem
  · exact hp.right r mem (h.account ▸ ours) le
  · exact absurd (hp.left.trans_le new) (Nat.not_lt.mpr le)

theorem listed (h : Onward s s') (hl : s.Listed after reports) : s'.Listed after reports where
  sorted := hl.sorted
  later  := hl.later
  filed r mem := by
    have ⟨filed, lt, ours⟩ := hl.filed r mem
    exact ⟨h.filed filed, lt.trans_le h.nextId, h.account ▸ ours⟩
  whole r mem ours late last hlast le := by
    obtain mem | new := h.reports r mem
    · exact hl.whole r mem (h.account ▸ ours) late last hlast le
    · exact absurd ((hl.filed last hlast).right.left.trans_le new) (Nat.not_lt.mpr le)

theorem read (h : Onward s s') (hr : s.Read after last done) : s'.Read after last done where
  sorted := hr.sorted
  later  := hr.later
  given  := hr.given.trans_le h.nextId
  whole r mem ours late le := by
    obtain mem | new := h.reports r mem
    · exact hr.whole r mem (h.account ▸ ours) late le
    · exact absurd (hr.given.trans_le new) (Nat.not_lt.mpr le)
  stored e mem some := h.kept (hr.stored e mem some)

theorem pulling (h : Onward s s') (failed : s'.failed = s.failed) (pulls : s'.pulls = s.pulls) {p : Pull γ φ}
    (hp : s.Pulling p) : s'.Pulling p := by
  have tried : ∀ {upTo}, s.Tried upTo → s'.Tried upTo := fun {upTo} ht => by rwa [Tried, failed, pulls]
  cases p
  case asking   => exact ⟨h.passed hp.left, tried hp.right⟩
  case listed   => exact ⟨h.passed hp.left, tried hp.right.left, h.listed hp.right.right⟩
  case recorded => exact ⟨h.passed hp.left, tried hp.right.left, h.read hp.right.right⟩
  case acking   => exact ⟨h.passed hp.left, tried hp.right⟩

theorem genuine (h : Onward s s') {kept : NewReport φ} (hg : s.Genuine kept) : s'.Genuine kept := by
  obtain ⟨server, r, filed, ours, same⟩ := hg
  exact ⟨h.account ▸ server, r, h.filed filed, h.account ▸ ours, same⟩

theorem sweep (s : State γ φ) (now : Millis) : Onward s (s.sweep now) :=
  ⟨rfl, le_rfl, fun _ mem => .inl (Db.mem_sweepReports.mp mem).left, fun _ => id, fun _ => id, fun _ => id⟩

theorem ack (s : State γ φ) (upTo : Nat) : Onward s (s.ack upTo) :=
  ⟨rfl, le_rfl, fun _ mem => .inl (Db.mem_ackReports.mp mem).left, fun _ => id, fun _ => id, fun _ => id⟩

end Onward

namespace Waiting

-- The app's steps leave the server's reports as they are.
theorem onward (h : s.Waiting) (onward : Onward s s') (db : s'.db = s.db) (filed : s'.filed = s.filed)
    (dropped : s'.dropped = s.dropped) (swept : s'.swept = s.swept) (acks : ∀ u ∈ s'.acks, s'.Passed u)
    (acknowledged : s'.acknowledged = s.acknowledged) : s'.Waiting where
  pos   := db ▸ h.pos
  ids   := db ▸ filed ▸ h.ids
  apart := filed ▸ h.apart
  filed := db ▸ filed ▸ h.filed
  placed r mem ours := by
    rw [db, dropped, swept]
    exact (h.placed r (filed ▸ mem) (onward.account ▸ ours)).imp_right (.imp_left onward.kept)
  counted      := db ▸ dropped ▸ h.counted
  acks         := acks
  acknowledged := acknowledged ▸ fun r mem => onward.kept (h.acknowledged r mem)

theorem sweep (h : s.Waiting) (now : Millis) : (s.sweep now).Waiting where
  pos   := h.pos
  ids   := h.ids
  apart := h.apart
  filed r mem := h.filed r (Db.mem_sweepReports.mp mem).left
  placed r filed ours := by
    obtain mem | kept | dropped | swept := h.placed r filed ours
    · cases old : Db.isOld now r
      case false => exact .inl (Db.mem_sweepReports.mpr ⟨mem, old⟩)
      case true  => exact .inr (.inr (.inr (List.mem_append_left _ (List.mem_filter.mpr ⟨mem, old⟩))))
    · exact .inr (.inl kept)
    · exact .inr (.inr (.inl dropped))
    · exact .inr (.inr (.inr (List.mem_append_right _ swept)))
  counted := h.counted
  acks u hu := (Onward.sweep s now).passed (h.acks u hu)
  acknowledged := h.acknowledged

theorem ack (h : s.Waiting) (passed : s.Passed upTo) : (s.ack upTo).Waiting where
  pos   := h.pos
  ids   := h.ids
  apart := h.apart
  filed r mem := h.filed r (Db.mem_ackReports.mp mem).left
  placed r filed ours := by
    obtain mem | rest := h.placed r filed ours
    · cases acked : Db.isAcked s.account.mailboxId upTo r
      case false => exact .inl (Db.mem_ackReports.mpr ⟨mem, acked⟩)
      case true  =>
        rw [Db.isAcked, Bool.and_eq_true, decide_eq_true_iff, decide_eq_true_iff] at acked
        exact .inr (.inl (passed.right r mem ours acked.right))
    · exact .inr rest
  counted := h.counted
  acks u hu := (Onward.ack s upTo).passed (h.acks u hu)
  acknowledged r mem := by
    obtain mem | mem := List.mem_append.mp mem
    · have ⟨mem, acked⟩ := List.mem_filter.mp mem
      rw [Db.isAcked, Bool.and_eq_true, decide_eq_true_iff, decide_eq_true_iff] at acked
      exact passed.right r mem acked.left acked.right
    · exact h.acknowledged r mem

-- Another mailbox's reports are not ours.
theorem ackOther (h : s.Waiting) {mailboxId : Nat} (other : mailboxId ≠ s.account.mailboxId) :
    ({ s with db := s.db.ackReports mailboxId upTo } : State γ φ).Waiting where
  pos   := h.pos
  ids   := h.ids
  apart := h.apart
  filed r mem := h.filed r (Db.mem_ackReports.mp mem).left
  placed r filed ours := by
    refine (h.placed r filed ours).imp_left fun mem => Db.mem_ackReports.mpr ⟨mem, ?_⟩
    rw [Db.isAcked, ours, decide_eq_false (Ne.symm other), Bool.false_and]
  counted := h.counted
  acks u hu := ⟨(h.acks u hu).left, fun r mem => (h.acks u hu).right r (Db.mem_ackReports.mp mem).left⟩
  acknowledged := h.acknowledged

-- A new report waits, or is dropped at once.
theorem file (h : s.Waiting) {r : ReportRow γ} (new : r.id = s.db.nextId) {db : Db γ} {dropped : List (ReportRow γ)}
    (hf : s.db.file r now = some (db, dropped)) (received : r.receivedAt = now) :
    Onward s { s.sweep now with db, filed := r :: s.filed, dropped := dropped ++ s.dropped } ∧
    ({ s.sweep now with db, filed := r :: s.filed, dropped := dropped ++ s.dropped } : State γ φ).Waiting := by
  have ⟨nextId, mem_iff, counted⟩ := Db.insertReport_spec hf
  have same : ({ r with receivedAt := now, id := (s.db.sweepReports now).nextId } : ReportRow γ) = r := by
    rw [← received]
    exact congrArg (fun i => { r with id := i }) new.symm
  simp only [same] at mem_iff
  have onward : Onward s { s.sweep now with db, filed := r :: s.filed, dropped := dropped ++ s.dropped } := by
    refine ⟨rfl, (Nat.le_succ _).trans nextId.ge, fun r' mem => ?_, fun _ => id, fun _ => id, List.subset_cons_self _ _⟩
    obtain mem | rfl := (mem_iff r').mp (.inl mem)
    · exact .inl (Db.mem_sweepReports.mp mem).left
    · exact .inr new.ge
  refine ⟨onward, (Nat.succ_pos _).trans_eq nextId.symm, fun r' mem => ?_, ?_, fun r' mem => ?_, fun r' mem ours => ?_,
    fun m => ?_, fun u hu => onward.passed (h.acks u hu), fun r' mem => onward.kept (h.acknowledged r' mem)⟩
  · obtain rfl | mem := List.mem_cons.mp mem
    · exact ⟨h.pos.trans_eq new.symm, (Nat.lt_succ_of_le new.le).trans_eq nextId.symm⟩
    · exact (h.ids r' mem).imp_right (Nat.lt_of_lt_of_le · onward.nextId)
  · exact h.apart.cons fun r' mem => new ▸ (Nat.ne_of_lt (h.ids r' mem).right).symm
  · obtain mem | rfl := (mem_iff r').mp (.inl mem)
    · exact List.mem_cons_of_mem r (h.filed r' (Db.mem_sweepReports.mp mem).left)
    · exact List.mem_cons_self
  · have inserted : r' ∈ (s.db.sweepReports now).reports ∨ r' = r → r' ∈ db.reports ∨ r' ∈ dropped ++ s.dropped :=
      fun mem => ((mem_iff r').mpr mem).imp_right (List.mem_append_left _)
    obtain rfl | mem := List.mem_cons.mp mem
    · exact (inserted (.inr rfl)).imp_right fun dropped => .inr (.inl dropped)
    · obtain mem | kept | gone | swept := (h.sweep now).placed r' mem ours
      · exact (inserted (.inl mem)).imp_right fun dropped => .inr (.inl dropped)
      · exact .inr (.inl kept)
      · exact .inr (.inr (.inl (List.mem_append_right _ gone)))
      · exact .inr (.inr (.inr swept))
  · rw [List.countP_append, Nat.add_comm, ← h.counted m]
    exact counted m

end Waiting

namespace Inv

theorem pass (h : s.Inv) (onward : Onward s s') (waiting : s'.Waiting) (booked : s'.Booked)
    (failed : s'.failed = s.failed) (pulls : s'.pulls = s.pulls) (pull : s'.pull = s.pull) : s'.Inv :=
  ⟨waiting, booked, fun p hp => onward.pulling failed pulls (h.pulling p (pull ▸ hp))⟩

theorem sweep (h : s.Inv) (now : Millis) : (s.sweep now).Inv :=
  h.pass (.sweep s now) (h.waiting.sweep now) { h.booked with } rfl rfl rfl

theorem ack (h : s.Inv) (passed : s.Passed upTo) : (s.ack upTo).Inv :=
  h.pass (.ack s upTo) (h.waiting.ack passed) { h.booked with } rfl rfl rfl

theorem file (h : s.Inv) {r : ReportRow γ} (new : r.id = s.db.nextId) {db : Db γ} {dropped : List (ReportRow γ)}
    (hf : s.db.file r now = some (db, dropped)) (received : r.receivedAt = now) :
    ({ s.sweep now with db, filed := r :: s.filed, dropped := dropped ++ s.dropped } : State γ φ).Inv := by
  have ⟨onward, waiting⟩ := h.waiting.file new hf received
  have genuine := fun kept hk => onward.genuine (h.booked.genuine kept hk)
  exact h.pass onward waiting { h.booked with genuine } rfl rfl rfl

theorem ackOther (h : s.Inv) {mailboxId : Nat} (other : mailboxId ≠ s.account.mailboxId) :
    ({ s with db := s.db.ackReports mailboxId upTo } : State γ φ).Inv := by
  have onward : Onward s { s with db := s.db.ackReports mailboxId upTo } :=
    ⟨rfl, le_rfl, fun _ mem => .inl (Db.mem_ackReports.mp mem).left, fun _ => id, fun _ => id, fun _ => id⟩
  exact h.pass onward (h.waiting.ackOther other) { h.booked with } rfl rfl rfl

-- A pull may end at any time.
theorem fail (h : s.Inv) : ({ s with pull := none } : State γ φ).Inv :=
  ⟨{ h.waiting with }, { h.booked with }, nofun⟩

theorem restart (h : s.Inv) : ({ s with pull := none, failures := fun _ => 0 } : State γ φ).Inv :=
  ⟨{ h.waiting with }, { h.booked with failures := fun _ => Nat.zero_le _ }, nofun⟩

theorem start (h : s.Inv) : ({ s with pull := some (.asking 0 MAX_PAGES), pulls := s.pulls + 1 } : State γ φ).Inv := by
  refine ⟨{ h.waiting with }, { h.booked with pulls := fun f mem => (h.booked.pulls f mem).trans (Nat.le_succ _) }, ?_⟩
  rintro _ ⟨⟩
  refine ⟨⟨h.waiting.pos, fun r mem _ le => ?_⟩, fun f mem is => ?_⟩
  · exact absurd (h.waiting.ids r (h.waiting.filed r mem)).left (Nat.not_lt.mpr le)
  · exact absurd (is ▸ h.booked.pulls f mem) (Nat.not_succ_le_self _)

theorem list (h : s.Inv) (hp : s.pull = some (.asking after pages)) (limit : Nat) (now : Millis) : ({ s.sweep now with
    pull := some (.listed after pages (s.db.list s.account.mailboxId after limit now).2.1 more) } : State γ φ).Inv := by
  have swept := h.sweep now
  have ⟨passed, tried⟩ := swept.pulling _ hp
  have page := Db.page_list s.db s.account.mailboxId after limit now
  refine ⟨{ swept.waiting with }, { swept.booked with }, ?_⟩
  rintro _ ⟨⟩
  refine ⟨passed, tried, page.sorted, page.later, fun r mem => ?_, page.whole⟩
  have ⟨mem, ours⟩ := page.listed r mem
  have filed := swept.waiting.filed r mem
  exact ⟨filed, (swept.waiting.ids r filed).right, ours⟩

theorem le_last {rows : List (ReportRow γ)} {last r : ReportRow γ} (sorted : rows.Pairwise (·.id < ·.id))
    (is : rows.getLast? = some last) (mem : r ∈ rows) : r.id ≤ last.id := by
  obtain ⟨front, rfl⟩ := List.getLast?_eq_some_iff.mp is
  obtain mem | mem := List.mem_append.mp mem
  · exact ((List.pairwise_append.mp sorted).right.right r mem last List.mem_cons_self).le
  · exact (congrArg ReportRow.id (List.mem_singleton.mp mem)).le

-- A page's reports are kept before any is acknowledged.
theorem record (h : s.Inv) (hp : s.pull = some (.listed after pages reports more)) (opened : ReportRow γ → Option φ)
    (recording : Bool) (now : Millis) : (s.record after pages reports more opened recording now).Inv := by
  have ⟨passed, tried, listed⟩ := h.pulling _ hp
  rw [State.record]
  have mem_iff : ∀ r, r ∈ (reports.filter (0 < ·.id)).mergeSort ReportRow.le ↔ r ∈ reports := fun r => by
    rw [List.mem_mergeSort, List.mem_filter, decide_eq_true_iff, and_iff_left_iff_imp]
    exact fun mem => (Nat.zero_le after).trans_lt (listed.later r mem)
  have sorted := Db.sorted_mergeSort ((listed.sorted.imp Nat.ne_of_lt).sublist (List.filter_sublist (p := (0 < ·.id))))
  generalize (reports.filter (0 < ·.id)).mergeSort ReportRow.le = rows at mem_iff sorted
  split
  case h_1 => exact h.fail
  case h_2 last is =>
    have spec := Store.recordReports_spec h.booked.single recording
      ((rows.map fun r => (r.id, parse s.account opened r)).filterMap (·.2)) now
    dsimp only
    generalize (s.store.recordReports recording _ now).1 = store at spec ⊢
    have ⟨single, keeps, holds, only⟩ := spec
    have onward : Onward s { s with
        store
        pull := some (.recorded after pages last.id (rows.map fun r => (r.id, parse s.account opened r)) more) } :=
      ⟨rfl, le_rfl, fun _ mem => .inl mem, keeps, fun _ => id, fun _ => id⟩
    have of_mem : ∀ e ∈ rows.map (fun r => (r.id, parse s.account opened r)), ∃ r ∈ reports,
        r ∈ rows ∧ (r.id, parse s.account opened r) = e := fun e mem => by
      obtain ⟨r, mem_rows, rfl⟩ := List.mem_map.mp mem
      exact ⟨r, (mem_iff r).mp mem_rows, mem_rows, rfl⟩
    have mem_last : last ∈ rows := List.mem_of_getLast? is
    refine ⟨h.waiting.onward onward rfl rfl rfl rfl (fun u hu => onward.passed (h.waiting.acks u hu)) rfl,
      { h.booked with single, genuine := fun kept hk => ?genuine }, ?pulling⟩
    case genuine =>
      refine (only kept hk).elim (h.booked.genuine kept) fun mem => ?_
      obtain ⟨e, he, is⟩ := List.mem_filterMap.mp mem
      obtain ⟨r, hr, _, rfl⟩ := of_mem e he
      obtain ⟨fields, _, rfl⟩ := Option.map_eq_some_iff.mp is
      have ⟨filed, _, ours⟩ := listed.filed r hr
      exact ⟨rfl, r, filed, ours, rfl, rfl, rfl⟩
    case pulling =>
      rintro _ ⟨⟩
      refine ⟨onward.passed passed, tried, List.pairwise_map.mpr sorted, fun e mem => ?_,
        (listed.filed last ((mem_iff last).mp mem_last)).right.left, fun r mem ours late le => ?_, fun e mem some => ?_⟩
      · obtain ⟨r, hr, mem_rows, rfl⟩ := of_mem e mem
        exact ⟨listed.later r hr, le_last sorted is mem_rows⟩
      · have mem := listed.whole r mem ours late last ((mem_iff last).mp mem_last) le
        exact ⟨_, List.mem_map.mpr ⟨r, (mem_iff r).mpr mem, rfl⟩, rfl⟩
      · obtain ⟨r, _, _, rfl⟩ := of_mem e mem
        obtain ⟨report, is⟩ := Option.isSome_iff_exists.mp some
        obtain ⟨fields, _, key⟩ := Option.map_eq_some_iff.mp is
        obtain ⟨kept, held, same⟩ := holds report (List.mem_filterMap.mpr ⟨_, mem, is⟩)
        exact .inl ⟨kept, held, same.trans (key ▸ rfl)⟩

theorem mem_unread {pull : Nat} {f : Nat × Nat} : f ∈ unread pull done ↔ f.1 = pull ∧ (f.2, none) ∈ done := by
  obtain ⟨p, i⟩ := f
  simp only [unread, List.mem_map, List.mem_filter, Prod.exists, Option.isNone_iff_eq_none, Prod.mk.injEq]
  constructor
  · rintro ⟨_, _, ⟨mem, rfl⟩, rfl, rfl⟩
    exact ⟨rfl, mem⟩
  · rintro ⟨rfl, mem⟩
    exact ⟨i, none, ⟨mem, rfl⟩, rfl, rfl⟩

-- The tries of a pull are counted once for each report.
theorem booked_acknowledge (h : s.Booked) (tried : s.Tried after) (hr : s.Read after last done) :
    ({ s with
      failures := (Acknowledgeable.acknowledgeable s.failures done).failures
      givenUp  := (Acknowledgeable.acknowledgeable s.failures done).givenUp ++ s.givenUp
      failed   := unread s.pulls done ++ s.failed } : State γ φ).Booked := by
  have told := Acknowledgeable.told_acknowledgeable s.failures hr.sorted
  have grown : ∀ i, s.failed.countP (·.2 = i) ≤ (unread s.pulls done ++ s.failed).countP (·.2 = i) := fun i =>
    (List.sublist_append_right _ _).countP_le
  have more : ∀ i, (i, none) ∈ done →
      s.failed.countP (·.2 = i) + 1 ≤ (unread s.pulls done ++ s.failed).countP (·.2 = i) := by
    intro i mem
    rw [List.countP_append, Nat.add_comm]
    exact Nat.add_le_add_right (List.countP_pos_iff.mpr ⟨(s.pulls, i), mem_unread.mpr ⟨rfl, mem⟩, decide_eq_true rfl⟩) _
  refine ⟨h.single, h.genuine, fun i => ?_, fun i hi => ?_, ?_, fun f mem => ?_⟩
  · obtain le | ⟨mem, le⟩ := told.failures i
    · exact le.trans ((h.failures i).trans (grown i))
    · exact le.trans ((Nat.succ_le_succ (h.failures i)).trans (more i mem))
  · obtain hi | hi := List.mem_append.mp hi
    · have ⟨mem, tries⟩ := told.givenUp i hi
      exact tries.trans ((Nat.succ_le_succ (h.failures i)).trans (more i mem))
    · exact (h.givenUp i hi).trans (grown i)
  · refine List.nodup_append.mpr ⟨?_, h.apart, fun f mem g hg is => ?_⟩
    · -- No two reports of a page have one id.
      have sorted := hr.sorted.sublist (List.filter_sublist (p := fun e => e.2.isNone))
      exact List.pairwise_map.mpr (sorted.imp fun lt same => absurd (Prod.mk.inj same).right (Nat.ne_of_lt lt))
    · have ⟨current, mem⟩ := mem_unread.mp mem
      subst is
      exact absurd (hr.later _ mem).left (Nat.not_lt.mpr (tried f hg current))
  · obtain mem | mem := List.mem_append.mp mem
    · exact (mem_unread.mp mem).left.le
    · exact h.pulls f mem

-- What is acknowledged was stored, or is given up on.
theorem acknowledge (h : s.Inv) (hp : s.pull = some (.recorded after pages last done more)) (saved : Bool) :
    (s.acknowledge pages last done more saved).Inv := by
  have ⟨passed, tried, hr⟩ := h.pulling _ hp
  have told := Acknowledgeable.told_acknowledgeable s.failures hr.sorted
  have booked := booked_acknowledge h.booked tried hr
  rw [State.acknowledge]
  generalize Acknowledgeable.acknowledgeable s.failures done = a at told booked
  have onward : Onward s { s with
      failures := a.failures
      givenUp  := a.givenUp ++ s.givenUp
      failed   := unread s.pulls done ++ s.failed } :=
    ⟨rfl, le_rfl, fun _ mem => .inl mem, fun _ => id, List.subset_append_right _ _, fun _ => id⟩
  have waiting := h.waiting.onward onward rfl rfl rfl rfl (fun u hu => onward.passed (h.waiting.acks u hu)) rfl
  dsimp only
  split
  case isTrue  => exact ⟨{ waiting with }, { booked with }, nofun⟩
  case isFalse =>
    split
    case h_1         => exact ⟨{ waiting with }, { booked with }, nofun⟩
    case h_2 upTo is =>
      obtain ⟨⟨e, he, rfl⟩, led⟩ := told.upTo _ is
      have ⟨late, le_last⟩ := hr.later e he
      have upTo : Passed { s with
          failures := a.failures
          givenUp  := a.givenUp ++ s.givenUp
          failed   := unread s.pulls done ++ s.failed } e.1 := by
        refine ⟨le_last.trans_lt hr.given, fun r mem ours le => ?_⟩
        obtain before | late := le_or_gt r.id after
        · exact onward.kept (passed.right r mem ours before)
        · obtain ⟨d, hd, same⟩ := hr.whole r mem ours late (le.trans le_last)
          rw [← same] at le ⊢
          refine (led d hd le).elim (fun read => onward.kept (hr.stored d hd read)) fun given => ?_
          exact .inr (List.mem_append_left _ given)
      refine ⟨{ waiting with acks := fun u hu => ?_ }, { booked with }, ?_⟩
      · obtain rfl | hu := List.mem_cons.mp hu
        · exact upTo
        · exact waiting.acks u hu
      · rintro _ ⟨⟩
        refine ⟨upTo, fun f mem current => ?_⟩
        obtain mem | mem := List.mem_append.mp mem
        · exact (hr.later _ (mem_unread.mp mem).right).right
        · exact (tried f mem current).trans (late.le.trans le_last)

theorem acked (h : s.Inv) (hp : s.pull = some (.acking upTo pages last more)) :
    ((s.ack upTo).turn upTo pages last more).Inv := by
  have ⟨passed, _⟩ := h.pulling _ hp
  have acked := h.ack passed
  have ⟨passed, tried⟩ := acked.pulling _ hp
  refine ⟨{ acked.waiting with }, { acked.booked with }, ?_⟩
  rw [turn]
  split
  case isTrue      => exact nofun
  case isFalse all =>
    rintro _ ⟨⟩
    have is : upTo = last := Classical.byContradiction fun ne => all (.inl ne)
    exact ⟨is ▸ passed, tried⟩

theorem step {a : Action γ φ} (h : s.Inv) (hs : s.step a = some s') : s'.Inv := by
  cases a <;> rw [State.step] at hs
  case file r now =>
    obtain ⟨⟨db, dropped⟩, hf, hs⟩ := Option.bind_eq_some_iff.mp hs
    cases hs
    exact h.file rfl hf rfl
  case sweep       => cases hs; exact h.sweep _
  case ackOther    =>
    split at hs
    case isTrue        => cases hs
    case isFalse other => cases hs; exact h.ackOther other
  case start       =>
    split at hs
    case h_1 => cases hs; exact h.start
    case h_2 => cases hs
  case list        =>
    split at hs
    case h_1 hp => cases hs; exact h.list hp _ _
    case h_2    => cases hs
  case record      =>
    split at hs
    case h_1 hp => cases hs; exact h.record hp _ _ _
    case h_2    => cases hs
  case acknowledge =>
    split at hs
    case h_1 hp => cases hs; exact h.acknowledge hp _
    case h_2    => cases hs
  case acked       =>
    split at hs
    case h_1 hp => cases hs; exact h.acked hp
    case h_2    => cases hs
  case deliver     =>
    split at hs
    case isTrue sent => cases hs; exact h.ack (h.waiting.acks _ sent)
    case isFalse     => cases hs
  case fail        => cases hs; exact h.fail
  case restart     => cases hs; exact h.restart

theorem start_inv {account : Account} : ({ account } : State γ φ).Inv where
  waiting := ⟨Nat.one_pos, fun _ mem => absurd mem List.not_mem_nil, .nil, fun _ mem => absurd mem List.not_mem_nil,
    fun _ mem => absurd mem List.not_mem_nil, fun _ => rfl, fun _ mem => absurd mem List.not_mem_nil,
    fun _ mem => absurd mem List.not_mem_nil⟩
  booked  := {
    single   := ⟨fun _ mem => absurd mem List.not_mem_nil, fun _ mem => absurd mem List.not_mem_nil⟩
    genuine  := fun _ ⟨_, mem, _⟩ => absurd mem List.not_mem_nil
    failures := fun _ => le_rfl
    givenUp  := fun _ mem => absurd mem List.not_mem_nil
    apart    := .nil
    pulls    := fun _ mem => absurd mem List.not_mem_nil
  }
  pulling := fun _ mem => absurd mem (Option.not_mem_none _)

end Inv

-- A report that is stored is stored once, and so is the composition that is made of it.
theorem recorded_le (s : State γ φ) (r : ReportRow γ) : s.recorded r ≤ 1 :=
  Table.count_le_one fun kept mem kept' mem' is is' => by
    have ⟨server, same⟩ := of_decide_eq_true is
    have ⟨server', same'⟩ := of_decide_eq_true is'
    exact Table.eq_of_key_eq mem mem' (Prod.ext (server.trans server'.symm) (same.trans same'.symm))

theorem composed_le (single : s.store.Single) (r : ReportRow γ) : s.composed r ≤ 1 :=
  Table.count_le_one fun c mem c' mem' is is' => by
    have ⟨server, same⟩ := of_decide_eq_true is
    have ⟨server', same'⟩ := of_decide_eq_true is'
    exact single.once c mem c' mem' (Prod.ext (server.trans server'.symm) (same.trans same'.symm))

theorem Kept.cases {r : ReportRow γ} (h : s.Kept r.id) : s.recorded r = 1 ∨ r.id ∈ s.givenUp := by
  refine h.imp_left ?_
  rintro ⟨_, ⟨kept, mem, rfl⟩, key⟩
  have ⟨server, same⟩ := Prod.mk.inj key
  refine Nat.le_antisymm (recorded_le s r) (Nat.one_le_iff_ne_zero.mpr fun none => ?_)
  have := Table.count_eq_zero.mp none kept mem
  exact of_decide_eq_false this ⟨server, same⟩

-- What becomes of the reports of a mailbox.
structure Delivered (s : State γ φ) : Prop where
  placed   : ∀ r ∈ s.filed, r.mailboxId = s.account.mailboxId →
    r ∈ s.db.reports ∨ s.recorded r = 1 ∨ r ∈ s.dropped ∨ r ∈ s.swept ∨ r.id ∈ s.givenUp
  once     : ∀ r ∈ s.filed, s.recorded r ≤ 1 ∧ s.composed r ≤ 1
  apart    : ∀ r ∈ s.filed, ∀ r' ∈ s.filed, r.id = r'.id → r = r'
  genuine  : ∀ kept, s.store.Holds kept → s.Genuine kept
  counted  : s.db.reportsDropped s.account.mailboxId = s.dropped.countP (·.mailboxId = s.account.mailboxId)
  givenUp  : ∀ id ∈ s.givenUp, (s.failedPulls id).Nodup ∧ MAX_REPORT_TRIES ≤ (s.failedPulls id).length
  acked    : ∀ r ∈ s.acknowledged, s.recorded r = 1 ∨ r.id ∈ s.givenUp
  inFlight : ∀ upTo ∈ s.acks, ∀ r ∈ s.db.reports, r.mailboxId = s.account.mailboxId → r.id ≤ upTo →
    s.recorded r = 1 ∨ r.id ∈ s.givenUp

theorem nodup_failedPulls (apart : s.failed.Nodup) (id : Nat) : (s.failedPulls id).Nodup := by
  refine List.Nodup.map_on (fun f hf g hg same => ?_) (apart.filter _)
  have ⟨_, hf⟩ := List.mem_filter.mp hf
  have ⟨_, hg⟩ := List.mem_filter.mp hg
  exact Prod.ext same ((of_decide_eq_true hf).trans (of_decide_eq_true hg).symm)

theorem Inv.delivered (h : s.Inv) : s.Delivered where
  placed r mem ours := by
    obtain waits | kept | dropped | swept := h.waiting.placed r mem ours
    · exact .inl waits
    · exact .inr (kept.cases.imp_right fun given => .inr (.inr given))
    · exact .inr (.inr (.inl dropped))
    · exact .inr (.inr (.inr (.inl swept)))
  once r _ := ⟨recorded_le s r, composed_le h.booked.single r⟩
  apart r mem r' mem' same := List.inj_on_of_nodup_map (List.pairwise_map.mpr h.waiting.apart) mem mem' same
  genuine := h.booked.genuine
  counted := h.waiting.counted _
  givenUp id given := by
    refine ⟨nodup_failedPulls h.booked.apart id, (h.booked.givenUp id given).trans_eq ?_⟩
    rw [failedPulls, List.length_map, List.countP_eq_length_filter]
  acked r mem := (h.waiting.acknowledged r mem).cases
  inFlight upTo sent r mem ours le := ((h.waiting.acks upTo sent).right r mem ours le).cases

end State

-- In every run, whatever is lost on the way, each report that was filed waits, is stored once, or is accounted for.
theorem reachable_delivered (h : (system γ φ).Reachable (fun _ _ => True) s) : s.Delivered := by
  refine (h.invariant (P := State.Inv) (fun s start => ?_) fun s a s' h _ hs => h.step hs).delivered
  obtain ⟨account, rfl⟩ := start
  exact State.Inv.start_inv

section Runs

def account : Account :=
  { server := "https://rules.example#epoch", mailboxId := 1 }

def report : ReportRow String :=
  { mailboxId := 1, agentId := "agent", receivedAt := 0, content := "Sent to a customer." }

def pulled (opened : Bool) : List (Action String String) :=
  [.start, .list 0, .record (fun r => if opened then some r.content else none) true 0, .acknowledge true]

-- An acknowledgement that is lost, and a report that does not open.
def lostAck : List (Action String String) :=
  .file report 0 :: pulled true ++ .fail :: .restart :: pulled true ++ .acked :: .file report 0 :: pulled false

theorem delivered_lostAck : ∃ s, (system String String).run (fun _ _ => True) { account } lostAck = some s ∧
    s.Delivered ∧ s.db.reports.rows.length = 1 ∧ s.store.cloudReports.rows.length = 1 ∧ s.acknowledged.length = 1 := by
  have ends : ((system String String).run (fun _ _ => True) { account } lostAck).any (fun s =>
      s.db.reports.rows.length = 1 ∧ s.store.cloudReports.rows.length = 1 ∧ s.acknowledged.length = 1) = true := by
    decide +kernel
  obtain ⟨s, hs, is⟩ := (Option.any_eq_true _ _).mp ends
  exact ⟨s, hs, reachable_delivered (.run (.start ⟨account, rfl⟩) hs), of_decide_eq_true is⟩

end Runs

end Kaluta.Reports
