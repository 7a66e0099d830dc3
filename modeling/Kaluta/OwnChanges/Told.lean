import Kaluta.OwnChanges.Engine
import Mathlib.Algebra.BigOperators.Group.List.Basic

-- What incremental sync reports as someone else's, over any run.
namespace Kaluta.OwnChanges

variable {threadOf : MessageId → ThreadId} {m : MessageId} {t : ThreadId} {l : LabelId} {d : Bool} {now : Millis}

section Count

variable {out : List ExternalLabelChange} {own : List OwnChange} {labeled : List Labeled}

-- What is put into a report is counted in it.
theorem countExternal_report {id : MessageId} {theirs : List LabelId} {added : Bool} :
    countExternal (report id t theirs added out) m l d =
      countExternal out m l d + if id = m ∧ added = d then theirs.count l else 0 := by
  induction out
  case nil =>
    simp only [report, countExternal, ExternalLabelChange.labels, List.map_cons, List.map_nil, List.sum_cons, List.sum_nil]
    by_cases same : id = m <;> cases added <;> cases d <;> simp [same]
  case cons e out ih =>
    rw [report]
    split
    case isFalse other =>
      rw [countExternal, List.map_cons, List.sum_cons, ← countExternal, ih, countExternal, countExternal, List.map_cons,
        List.sum_cons]
      omega
    case isTrue same =>
      subst same
      rw [countExternal, countExternal, List.map_cons, List.map_cons, List.sum_cons, List.sum_cons]
      by_cases about : e.message = m <;> cases added <;> cases d <;>
        simp [ExternalLabelChange.labels, about] <;> omega

def countLabeled (labeled : List Labeled) (m : MessageId) (l : LabelId) (d : Bool) : Nat :=
  (labeled.map fun (id, _, labels, added) => if id = m ∧ added = d then labels.count l else 0).sum

def ours (own : List OwnChange) (m : MessageId) (l : LabelId) (d : Bool) : Bool :=
  own.any fun c => c.message = m ∧ c.label = l ∧ c.added = d

theorem count_filter_ours {id : MessageId} {labels : List LabelId} {added : Bool} :
    (labels.filter fun l => !own.any fun c => c.message = id ∧ c.label = l ∧ c.added = added).count l =
      if ours own id l added then 0 else labels.count l := by
  by_cases is : ours own id l added
  case pos =>
    rw [if_pos is, List.count_eq_zero]
    intro mem
    have other := (List.mem_filter.mp mem).right
    rw [ours] at is
    rw [is] at other
    cases other
  case neg =>
    rw [if_neg is]
    refine List.count_filter ?_
    rw [ours] at is
    simpa using is

theorem countExternal_step {id : MessageId} {labels : List LabelId} {added : Bool} {theirs : List LabelId}
    (eq : labels.filter (fun l => !own.any fun c => c.message = id ∧ c.label = l ∧ c.added = added) = theirs) :
    countExternal (if theirs = [] then out else report id t theirs added out) m l d =
      countExternal out m l d + if id = m ∧ added = d then (if ours own m l d then 0 else labels.count l) else 0 := by
  have count : theirs.count l = if ours own id l added then 0 else labels.count l := by rw [← eq, count_filter_ours]
  have same : (if id = m ∧ added = d then theirs.count l else 0) =
      if id = m ∧ added = d then (if ours own m l d then 0 else labels.count l) else 0 := by
    split
    case isTrue about =>
      obtain ⟨rfl, rfl⟩ := about
      exact count
    case isFalse => rfl
  rw [← same]
  split
  case isTrue nil => simp [nil]
  case isFalse    => rw [countExternal_report]

-- A report has all label changes but the own ones.
theorem countExternal_notOurs : countExternal (notOurs own labeled) m l d =
    if ours own m l d then 0 else countLabeled labeled m l d := by
  have all (out : List ExternalLabelChange) : countExternal (labeled.foldl (fun out (message, thread, labels, added) =>
      let theirs := labels.filter fun l => !own.any fun c => c.message = message ∧ c.label = l ∧ c.added = added
      if theirs = [] then out else report message thread theirs added out) out) m l d =
      countExternal out m l d + if ours own m l d then 0 else countLabeled labeled m l d := by
    induction labeled generalizing out
    case nil => simp [countLabeled]
    case cons e labeled ih =>
      have more : countLabeled (e :: labeled) m l d =
          (if e.1 = m ∧ e.2.2.2 = d then e.2.2.1.count l else 0) + countLabeled labeled m l d :=
        List.sum_cons
      rw [List.foldl_cons, ih, countExternal_step rfl, more]
      cases ours own m l d <;> simp [Nat.add_assoc]
  exact (all []).trans (Nat.zero_add _)

theorem thread_report {id : MessageId} {theirs : List LabelId} {added : Bool} (h : ∀ e ∈ out, e.thread = threadOf e.message)
    (same : t = threadOf id) : ∀ e ∈ report id t theirs added out, e.thread = threadOf e.message := by
  induction out
  case nil =>
    intro e he
    rw [report, List.mem_singleton] at he
    rw [he]
    exact same
  case cons first out ih =>
    obtain ⟨here, rest⟩ := List.forall_mem_cons.mp h
    rw [report]
    split
    case isTrue  =>
      refine List.forall_mem_cons.mpr ⟨?_, rest⟩
      cases added <;> exact here
    case isFalse => exact List.forall_mem_cons.mpr ⟨here, ih rest⟩

theorem thread_notOurs (h : ∀ e ∈ labeled, e.2.1 = threadOf e.1) :
    ∀ e ∈ notOurs own labeled, e.thread = threadOf e.message := by
  refine List.foldlRecOn labeled _ (motive := fun out : List ExternalLabelChange => ∀ e ∈ out, e.thread = threadOf e.message)
    (fun _ none_ => nomatch none_) ?_
  intro out known e he
  dsimp only
  split
  · exact known
  · exact thread_report known (h e he)

end Count

section Loop

variable {fetched : List MessageId} {k : Loop} {changes : List Change} {c : Change}

def countFound (external : List (MessageId × List LabelId × Bool)) (m : MessageId) (l : LabelId) (d : Bool) : Nat :=
  (external.map fun (id, labels, added) => if id = m ∧ added = d then labels.count l else 0).sum

theorem countFound_concat {id : MessageId} {labels : List LabelId} {added : Bool}
    {external : List (MessageId × List LabelId × Bool)} : countFound (external ++ [(id, labels, added)]) m l d =
      countFound external m l d + if id = m ∧ added = d then labels.count l else 0 := by
  rw [countFound, List.map_append, List.sum_append, ← countFound]
  simp

theorem change_labeled {id : MessageId} {labels : List LabelId} {added : Bool} (is : c.labeled = some (id, labels, added)) :
    k.change fetched c = if id ∈ fetched then k else if (k.threads id).isSome then
      { k with external := k.external ++ [(id, labels, added)] } else k := by
  cases c <;> cases is <;> rfl

theorem count_of_labeled {id : MessageId} {labels : List LabelId} {added : Bool} (is : c.labeled = some (id, labels, added)) :
    c.count m l d = if id = m ∧ added = d then labels.count l else 0 := by
  rw [Change.count, is]

theorem threads_change (kept : c ≠ .messageDeleted m) : (k.change fetched c).threads m = k.threads m := by
  cases is : c.labeled
  case some e =>
    rw [change_labeled is]
    split
    · rfl
    · split <;> rfl
  case none =>
    cases c <;> cases is
    case messageAdded   => rfl
    case messageDeleted =>
      refine if_neg ?_
      rintro rfl
      exact kept rfl

theorem countFound_change (known : c.count m l d ≠ 0 → m ∉ fetched ∧ (k.threads m).isSome) :
    countFound (k.change fetched c).external m l d = countFound k.external m l d + c.count m l d := by
  cases is : c.labeled
  case none =>
    rw [Change.count, is, Nat.add_zero]
    cases c <;> cases is <;> rfl
  case some e =>
    obtain ⟨id, labels, added⟩ := e
    rw [change_labeled is]
    by_cases zero : c.count m l d = 0
    case pos =>
      rw [zero, Nat.add_zero]
      rw [count_of_labeled is] at zero
      split
      · rfl
      · split
        · rw [countFound_concat, zero, Nat.add_zero]
        · rfl
    case neg =>
      obtain ⟨unfetched, stored⟩ := known zero
      rw [count_of_labeled is] at zero ⊢
      have about : id = m := by
        by_contra other
        exact zero (if_neg fun is => other is.left)
      subst about
      rw [if_neg unfetched, if_pos stored, countFound_concat]

-- The loop over the changes finds each that is about a message that is stored throughout.
theorem loop_count (known : ∀ c ∈ changes, c.count m l d ≠ 0 →
      m ∉ fetched ∧ (k.threads m).isSome ∧ .messageDeleted m ∉ changes) :
    countFound (changes.foldl (Loop.change fetched) k).external m l d =
      countFound k.external m l d + (changes.map (·.count m l d)).sum := by
  induction changes generalizing k
  case nil => rfl
  case cons c changes ih =>
    have here : countFound (k.change fetched c).external m l d = countFound k.external m l d + c.count m l d := by
      refine countFound_change fun some_ => ?_
      have ⟨unfetched, stored, _⟩ := known c List.mem_cons_self some_
      exact ⟨unfetched, stored⟩
    rw [List.foldl_cons, ih, here, List.map_cons, List.sum_cons, Nat.add_assoc]
    intro c' mem some_
    obtain ⟨unfetched, stored, kept⟩ := known c' (List.mem_cons_of_mem c mem) some_
    rw [List.mem_cons, not_or] at kept
    rw [threads_change (Ne.symm kept.left)]
    exact ⟨unfetched, stored, kept.right⟩

theorem loop_threads (kept : .messageDeleted m ∉ changes) :
    (changes.foldl (Loop.change fetched) k).threads m = k.threads m := by
  induction changes generalizing k
  case nil => rfl
  case cons c changes ih =>
    rw [List.mem_cons, not_or] at kept
    rw [List.foldl_cons, ih kept.right, threads_change (Ne.symm kept.left)]

-- No thread is made up.
theorem loop_threads_of (h : (changes.foldl (Loop.change fetched) k).threads m = some t) : k.threads m = some t := by
  induction changes generalizing k
  case nil => exact h
  case cons c changes ih =>
    have here := ih h
    by_cases deleted : c = .messageDeleted m
    case neg => rwa [threads_change deleted] at here
    case pos =>
      subst deleted
      have gone : (k.change fetched (.messageDeleted m)).threads m = none := if_pos rfl
      rw [gone] at here
      cases here

def labeledOf (k : Loop) : List Labeled :=
  k.external.filterMap fun (id, labels, added) => (k.threads id).map (id, ·, labels, added)

theorem countLabeled_labeledOf :
    countLabeled (labeledOf k) m l d = if (k.threads m).isSome then countFound k.external m l d else 0 := by
  obtain ⟨threads, external⟩ := k
  rw [labeledOf]
  dsimp only
  induction external
  case nil => cases (threads m).isSome <;> rfl
  case cons e external ih =>
    obtain ⟨id, labels, added⟩ := e
    have more : countFound ((id, labels, added) :: external) m l d =
        (if id = m ∧ added = d then labels.count l else 0) + countFound external m l d :=
      List.sum_cons
    rw [more, List.filterMap_cons]
    cases stored : threads id
    case none =>
      dsimp only [Option.map_none]
      rw [ih]
      split
      case isFalse => rfl
      case isTrue is =>
        have other : id ≠ m := by
          rintro rfl
          rw [stored] at is
          cases is
        rw [if_neg fun about => other about.left, Nat.zero_add]
    case some t =>
      have here : countLabeled ((id, t, labels, added) :: external.filterMap fun (id, labels, added) =>
          (threads id).map (id, ·, labels, added)) m l d = (if id = m ∧ added = d then labels.count l else 0) +
          countLabeled (external.filterMap fun (id, labels, added) => (threads id).map (id, ·, labels, added)) m l d :=
        List.sum_cons
      dsimp only [Option.map_some]
      rw [here, ih]
      by_cases about : id = m ∧ added = d
      case neg => simp [about]
      case pos =>
        obtain ⟨rfl, rfl⟩ := about
        simp [stored]

-- A run's transaction finds each label change of the messages that are stored throughout.
theorem countLabeled_foldl (none_ : k.external = []) (known : ∀ c ∈ changes, c.count m l d ≠ 0 →
      m ∉ fetched ∧ (k.threads m).isSome ∧ .messageDeleted m ∉ changes) :
    countLabeled (labeledOf (changes.foldl (Loop.change fetched) k)) m l d = (changes.map (·.count m l d)).sum := by
  have found := loop_count known
  rw [none_, show countFound [] m l d = 0 from rfl, Nat.zero_add] at found
  rw [countLabeled_labeledOf, found]
  split
  case isTrue  => rfl
  case isFalse gone =>
    refine (List.sum_eq_zero fun n mem => ?_).symm
    obtain ⟨c, hc, rfl⟩ := List.mem_map.mp mem
    by_contra some_
    obtain ⟨_, stored, kept⟩ := known c hc some_
    rw [loop_threads kept] at gone
    exact gone stored

theorem thread_labeledOf (h : ∀ m t, k.threads m = some t → t = threadOf m) : ∀ e ∈ labeledOf k, e.2.1 = threadOf e.1 := by
  intro e he
  obtain ⟨⟨id, labels, added⟩, _, is⟩ := List.mem_filterMap.mp he
  obtain ⟨t, stored, rfl⟩ := Option.map_eq_some_iff.mp is
  exact h id t stored

end Loop

namespace State

variable {s : State}

-- What holds all along a run: own changes were asked for, the memory says of attempts that there were, and what a run
-- found is what others changed, unless Kaluta did so too.
structure Inv (threadOf : MessageId → ThreadId) (s : State) : Prop where
  asked    : ∀ r ∈ s.history, r.mine = true → ∃ op at', (op, at') ∈ s.attempts ∧ asked (ownChanges at' op) r.change = true
  own      : ∀ c ∈ s.own, ∃ op, (op, c.at') ∈ s.attempts ∧ c ∈ ownChanges c.at' op
  clock    : ∀ a ∈ s.attempts, a.2 ≤ s.clock
  threads  : ∀ m t, s.threads m = some t → t = threadOf m
  cursor   : s.cursor ≤ s.history.length
  run      : ∀ r, s.run = some r → s.applied = none ∧ s.cursor ≤ r.cursor ∧ r.cursor ≤ s.history.length ∧
    r.changes = (s.between s.cursor r.cursor).map (·.change)
  applied  : ∀ a, s.applied = some a → s.run = none ∧ a.first ≤ a.last ∧ a.last = s.cursor ∧
    (∀ e ∈ a.labeled, e.2.1 = threadOf e.1) ∧
    ∀ m l d, (∀ r ∈ s.between a.first a.last, r.mine = true → r.change.count m l d = 0) →
      countLabeled a.labeled m l d = s.countTheirs a.first a.last m l d
  told     : s.Told threadOf
  last     : ∀ r ∈ s.reports, r.last ≤ s.told

variable {s' : State} {first last place : Nat} {r : Record} {op : OutboxOp} {c : OwnChange}

section Facts

theorem at_ownChanges (h : c ∈ ownChanges now op) : c.at' = now := by
  have all (ms : List MessageId) (add remove : List LabelId) (h : c ∈ rememberOwn ms add remove now) : c.at' = now := by
    obtain ⟨m, _, h⟩ := List.mem_flatMap.mp h
    rcases List.mem_append.mp h with h | h <;> obtain ⟨l, _, rfl⟩ := List.mem_map.mp h <;> rfl
  cases op
  case modifyLabels => exact all _ _ _ h
  case trash        => exact all _ _ _ h
  case untrash      => exact all _ _ _ h
  all_goals cases h

theorem labeled_of_count {change : Change} (h : change.count m l d ≠ 0) :
    ∃ labels, change.labeled = some (m, labels, d) ∧ l ∈ labels := by
  rw [Change.count] at h
  cases is : change.labeled
  case none =>
    rw [is] at h
    exact absurd rfl h
  case some e =>
    obtain ⟨id, labels, added⟩ := e
    rw [is] at h
    dsimp only at h
    split at h
    case isFalse => exact absurd rfl h
    case isTrue about =>
      obtain ⟨rfl, rfl⟩ := about
      exact ⟨labels, rfl, List.count_pos_iff.mp (Nat.pos_of_ne_zero h)⟩

-- A change that was asked for is an own one.
theorem ours_of_asked {own : List OwnChange} {change : Change} (h : asked own change = true)
    (some_ : change.count m l d ≠ 0) : ours own m l d = true := by
  obtain ⟨labels, is, mem⟩ := labeled_of_count some_
  rw [asked, is, Option.any_some] at h
  exact List.all_eq_true.mp h l mem

theorem ours_iff {own : List OwnChange} :
    ours own m l d = true ↔ ∃ c ∈ own, c.message = m ∧ c.label = l ∧ c.added = d := by
  simp [ours]

theorem mem_between : r ∈ s.between first last ↔ ∃ place, first ≤ place ∧ place < last ∧ s.history[place]? = some r := by
  rw [between, List.mem_iff_getElem?]
  constructor
  · rintro ⟨i, is⟩
    rw [List.getElem?_drop, List.getElem?_take] at is
    split at is
    case isTrue lt => exact ⟨first + i, Nat.le_add_right _ _, lt, is⟩
    case isFalse   => cases is
  · rintro ⟨place, le, lt, is⟩
    refine ⟨place - first, ?_⟩
    rw [List.getElem?_drop, Nat.add_sub_cancel' le, List.getElem?_take_of_lt lt, is]

-- Of a part of the history in which no own change counts the others make up all.
theorem sum_theirs {records : List Record} (none_ : ∀ r ∈ records, r.mine = true → r.change.count m l d = 0) :
    ((records.filter (!·.mine)).map fun r => r.change.count m l d).sum =
      (records.map fun r => r.change.count m l d).sum := by
  induction records
  case nil => rfl
  case cons r records ih =>
    obtain ⟨here, rest⟩ := List.forall_mem_cons.mp none_
    rw [List.map_cons, List.sum_cons, ← ih rest]
    cases mine : r.mine
    case true  => rw [List.filter_cons_of_neg (by simp [mine]), here mine, Nat.zero_add]
    case false => rw [List.filter_cons_of_pos (by simp [mine]), List.map_cons, List.sum_cons]

theorem Inv.told_le (h : s.Inv threadOf) : s.told ≤ s.cursor := by
  cases is : s.applied
  case none   => rw [State.told, is]; exact le_rfl
  case some a =>
    obtain ⟨_, le, last, _⟩ := h.applied a is
    rw [State.told, is]
    exact le.trans last.le

end Facts

section Told

-- What is told stays so while nothing more is.
theorem Told.mono (h : s.Told threadOf) (history : ∃ more, s'.history = s.history ++ more) (reports : s'.reports = s.reports)
    (attempts : ∀ a ∈ s.attempts, a ∈ s'.attempts) (told : s'.told = s.told) (within : s.told ≤ s.history.length)
    (last : ∀ r ∈ s.reports, r.last ≤ s.told) : s'.Told threadOf := by
  obtain ⟨more, history⟩ := history
  have between (r : Report) (hr : r ∈ s.reports) : s'.between r.first r.last = s.between r.first r.last := by
    rw [State.between, history, List.take_append_of_le_length ((last r hr).trans within), State.between]
  rw [← reports] at between
  constructor
  case own =>
    intro r hr record mem
    rw [between r hr] at mem
    exact h.own r (reports ▸ hr) record mem
  case theirs =>
    intro r hr m l d none_
    rw [countTheirs, between r hr]
    refine h.theirs r (reports ▸ hr) m l d fun ⟨op, at', mem, is⟩ => none_ ⟨op, at', attempts _ mem, is⟩
  case thread => exact reports ▸ h.thread
  case once   => exact reports ▸ h.once
  case covers =>
    intro place lt record is
    rw [told] at lt
    rw [history, List.getElem?_append_left (lt.trans_le within)] at is
    exact reports ▸ h.covers place lt record is

-- All that holds, but what is told, where only the clock, the memory and the attempts change.
theorem Inv.remembers (h : s.Inv threadOf) {own : List OwnChange} {clock : Millis} {attempts : List (OutboxOp × Millis)}
    (more : ∀ a ∈ s.attempts, a ∈ attempts) (known : ∀ a ∈ attempts, a.2 ≤ clock)
    (from_ : ∀ c ∈ own, ∃ op, (op, c.at') ∈ attempts ∧ c ∈ ownChanges c.at' op) :
    { s with own, clock, attempts }.Inv threadOf where
  asked   := by
    intro r mem mine
    obtain ⟨op, at', attempt, is⟩ := h.asked r mem mine
    exact ⟨op, at', more _ attempt, is⟩
  own     := from_
  clock   := known
  threads := h.threads
  cursor  := h.cursor
  run     := h.run
  applied := h.applied
  told    := h.told.mono ⟨[], (List.append_nil _).symm⟩ rfl more rfl (h.told_le.trans h.cursor) h.last
  last    := h.last

theorem Inv.records (h : s.Inv threadOf) (r : Record)
    (asks : r.mine = true → ∃ op at', (op, at') ∈ s.attempts ∧ OwnChanges.asked (ownChanges at' op) r.change = true) :
    { s with history := s.history ++ [r] }.Inv threadOf := by
  have between {first last : Nat} (le : last ≤ s.history.length) :
      { s with history := s.history ++ [r] }.between first last = s.between first last := by
    rw [State.between, List.take_append_of_le_length le, State.between]
  refine { h with
    asked := ?asked, cursor := ?cursor, run := ?run, applied := ?applied,
    told := h.told.mono ⟨[r], rfl⟩ rfl (fun _ => id) rfl (h.told_le.trans h.cursor) h.last, last := h.last }
  case asked =>
    intro r' mem
    rcases List.mem_append.mp mem with mem | mem
    · exact h.asked r' mem
    · rw [List.mem_singleton.mp mem]
      exact asks
  case cursor => exact h.cursor.trans (by simp)
  case run =>
    intro run is
    obtain ⟨idle, le, within, changes⟩ := h.run run is
    exact ⟨idle, le, within.trans (by simp), by rw [changes, between within]⟩
  case applied =>
    intro a is
    obtain ⟨idle, le, last, thread, spec⟩ := h.applied a is
    have within : a.last ≤ s.history.length := last ▸ h.cursor
    refine ⟨idle, le, last, thread, fun m l d none_ => ?_⟩
    rw [between within] at none_
    rw [countTheirs, between within]
    exact spec m l d none_

theorem Inv.changesSince (h : s.Inv threadOf) (idle : s.idle = true) :
    { s with run := some ⟨(s.history.drop s.cursor).map Record.change, s.history.length⟩ }.Inv threadOf := by
  obtain ⟨_, free⟩ := Bool.and_eq_true_iff.mp idle
  have free := Option.isNone_iff_eq_none.mp free
  refine { h with
    run := ?run, applied := ?applied,
    told := h.told.mono ⟨[], (List.append_nil _).symm⟩ rfl (fun _ => id) rfl (h.told_le.trans h.cursor) h.last,
    last := h.last }
  case run =>
    rintro run ⟨⟩
    refine ⟨free, h.cursor, le_rfl, ?_⟩
    rw [State.between, List.take_length]
  case applied =>
    intro a is
    rw [free] at is
    cases is

-- A run's transaction finds what others changed.
theorem Inv.commit (h : s.Inv threadOf) {run : Run} (is : s.run = some run) {fetched : List MessageId}
    (ok : s.cond (.commit fetched) = true) : (s.commit threadOf run fetched).Inv threadOf := by
  obtain ⟨free, le, within, changes⟩ := h.run run is
  rw [State.cond, is, Option.all_some, List.all_eq_true] at ok
  have told : (s.commit threadOf run fetched).told = s.told := by
    rw [State.told, State.told, free]
    rfl
  have threads (m : MessageId) (t : ThreadId) (stored : (s.commit threadOf run fetched).threads m = some t) :
      t = threadOf m := by
    have first := loop_threads_of stored
    dsimp only at first
    split at first
    case isTrue  => exact (Option.some_inj.mp first).symm
    case isFalse => exact h.threads m t first
  refine { h with
    threads, cursor := within, run := nofun, applied := ?applied,
    told := h.told.mono ⟨[], (List.append_nil _).symm⟩ rfl (fun _ => id) told (h.told_le.trans h.cursor) h.last,
    last := told ▸ h.last }
  case applied =>
    rintro a ⟨⟩
    refine ⟨rfl, le, rfl, thread_labeledOf threads, fun m l d none_ => ?_⟩
    refine (countLabeled_foldl rfl ?_).trans ?_
    · intro c mem some_
      rw [changes] at mem
      obtain ⟨r, hr, rfl⟩ := List.mem_map.mp mem
      obtain ⟨labels, labeled, _⟩ := labeled_of_count some_
      have theirs : r.mine = false := by
        by_contra mine
        exact some_ (none_ r hr (by simpa using mine))
      have known := ok r hr
      rw [theirs, labeled] at known
      simp only [Bool.false_or, Option.all_some, Bool.and_eq_true, decide_eq_true_eq] at known
      obtain ⟨⟨unfetched, stored⟩, kept⟩ := known
      refine ⟨unfetched, ?_, kept⟩
      dsimp only
      rwa [if_neg unfetched]
    · rw [changes, List.map_map, countTheirs]
      exact (sum_theirs none_).symm

-- A run reports all but what is remembered.
theorem Inv.finish (h : s.Inv threadOf) {a : Applied} (is : s.applied = some a) (ok : s.cond .notOurs = true) :
    (s.finish a).Inv threadOf := by
  obtain ⟨idle, le, last, thread, spec⟩ := h.applied a is
  rw [State.cond, is, Option.all_some, List.all_eq_true] at ok
  have here : s.told = a.first := by rw [State.told, is]; rfl
  have now : (s.finish a).told = s.cursor := rfl
  -- Own changes in the run are remembered.
  have mine (r : Record) (mem : r ∈ s.between a.first a.last) (own : r.mine = true) (m : MessageId) (l : LabelId) (d : Bool)
      (some_ : r.change.count m l d ≠ 0) : ours (remembered s.own s.clock) m l d = true := by
    have asked := ok r mem
    rw [own] at asked
    exact ours_of_asked (by simpa using asked) some_
  -- What is remembered was attempted within the window.
  have pushed (m : MessageId) (l : LabelId) (d : Bool) (own : ours (remembered s.own s.clock) m l d = true) :
      (s.finish a).AlsoPushed ⟨a.first, a.last, s.clock, notOurs (remembered s.own s.clock) a.labeled⟩ m l d := by
    obtain ⟨c, mem, same⟩ := ours_iff.mp own
    obtain ⟨mem, recent⟩ := List.mem_filter.mp mem
    obtain ⟨op, attempt, asks⟩ := h.own c mem
    exact ⟨op, c.at', attempt, h.clock _ attempt, of_decide_eq_true recent, c, asks, same⟩
  refine { h with
    own := fun c mem => h.own c (List.mem_of_mem_filter mem), applied := nofun, run := ?run, told := ?told, last := ?last }
  case run =>
    intro run is'
    have busy : s.run = some run := is'
    rw [idle] at busy
    cases busy
  case last =>
    intro r hr
    rcases List.mem_cons.mp hr with rfl | hr
    · exact last.le
    · exact (h.last r hr).trans h.told_le
  case told =>
    constructor
    case own =>
      intro r hr
      rcases List.mem_cons.mp hr with rfl | hr
      · intro record mem own m l d some_
        rw [countExternal_notOurs, if_pos (mine record mem own m l d some_)]
      · exact h.told.own r hr
    case theirs =>
      intro r hr
      rcases List.mem_cons.mp hr with rfl | hr
      · intro m l d none_
        have other : ¬ours (remembered s.own s.clock) m l d = true := fun own => none_ (pushed m l d own)
        rw [countExternal_notOurs, if_neg other]
        refine spec m l d fun record mem own => ?_
        by_contra some_
        exact other (mine record mem own m l d some_)
      · exact h.told.theirs r hr
    case thread =>
      intro r hr
      rcases List.mem_cons.mp hr with rfl | hr
      · exact thread_notOurs thread
      · exact h.told.thread r hr
    case once =>
      exact List.pairwise_cons.mpr ⟨fun r hr => here ▸ h.last r hr, h.told.once⟩
    case covers =>
      intro place lt record is theirs labeled
      by_cases before : place < a.first
      case pos =>
        obtain ⟨r, hr, covers⟩ := h.told.covers place (here ▸ before) record is theirs labeled
        exact ⟨r, List.mem_cons_of_mem _ hr, covers⟩
      case neg =>
        exact ⟨_, List.mem_cons_self, Nat.le_of_not_lt before, last ▸ lt⟩

-- What is passed over without a report has nothing in it that others changed.
theorem Inv.skips (h : s.Inv threadOf) {own : List OwnChange} {cursor : Nat} (quiet : s.quiet s.told cursor = true)
    (le : s.told ≤ cursor) (within : cursor ≤ s.history.length) (from_ : ∀ c ∈ own, c ∈ s.own) :
    { s with own, cursor, run := none, applied := none }.Inv threadOf := by
  refine { h with
    own := fun c mem => h.own c (from_ c mem), cursor := within, run := nofun, applied := nofun, told := ?told,
    last := fun r hr => (h.last r hr).trans le }
  refine ⟨h.told.own, h.told.theirs, h.told.thread, h.told.once, fun place lt record is theirs labeled => ?_⟩
  by_cases before : place < s.told
  case pos => exact h.told.covers place before record is theirs labeled
  case neg =>
    have mem : record ∈ s.between s.told cursor := mem_between.mpr ⟨place, Nat.le_of_not_lt before, lt, is⟩
    have none_ := List.all_eq_true.mp quiet record mem
    rw [theirs, Bool.false_or, Option.isNone_iff_eq_none] at none_
    rw [none_] at labeled
    cases labeled

theorem quiet_self : s.quiet place place = true := by
  rw [quiet, State.between, List.drop_eq_nil_of_le (List.length_take_le ..)]
  rfl

theorem told_of_free (free : s.applied = none) : s.told = s.cursor := by
  rw [State.told, free]
  rfl

theorem Inv.fail (h : s.Inv threadOf) (free : s.applied = none) : { s with run := none }.Inv threadOf := by
  have told := told_of_free free
  have kept : ∀ c ∈ s.own, c ∈ s.own := fun _ => id
  have same := h.skips (told ▸ quiet_self) told.le h.cursor kept
  have eq : ({ s with run := none } : State) = { s with run := none, applied := none } := by simp [free]
  rw [eq]
  exact same

theorem Inv.startResync (h : s.Inv threadOf) (idle : s.idle = true) (ok : s.cond .startResync = true) :
    { s with cursor := s.history.length }.Inv threadOf := by
  obtain ⟨unread, free⟩ := Bool.and_eq_true_iff.mp idle
  have unread := Option.isNone_iff_eq_none.mp unread
  have free := Option.isNone_iff_eq_none.mp free
  have told := told_of_free free
  have kept : ∀ c ∈ s.own, c ∈ s.own := fun _ => id
  have same := h.skips (told ▸ ok) (told ▸ h.cursor) le_rfl kept
  have eq : ({ s with cursor := s.history.length } : State) =
      { s with cursor := s.history.length, run := none, applied := none } := by simp [unread, free]
  rw [eq]
  exact same

theorem Inv.restart (h : s.Inv threadOf) (ok : s.cond .restart = true) :
    { s with own := [], run := none, applied := none }.Inv threadOf := by
  have quiet : s.quiet s.told s.cursor = true := by
    cases is : s.applied
    case none   => exact told_of_free is ▸ quiet_self
    case some a =>
      obtain ⟨_, _, last, _⟩ := h.applied a is
      rw [State.cond, is, Option.all_some, last] at ok
      rwa [State.told, is]
  exact h.skips quiet h.told_le h.cursor fun _ hc => absurd hc List.not_mem_nil

theorem Inv.step {a : Action} (h : s.Inv threadOf) (ok : s.cond a = true) (hs : s.step threadOf a = some s') :
    s'.Inv threadOf := by
  cases a
  case tick now =>
    rw [State.step] at hs
    split at hs <;> cases hs
    case isTrue later =>
      exact h.remembers (fun _ => id) (fun a mem => (h.clock a mem).trans later) h.own
  case attempt op =>
    cases hs
    refine h.remembers (fun _ => List.mem_cons_of_mem _) (List.forall_mem_cons.mpr ⟨le_rfl, h.clock⟩) fun c mem => ?_
    rcases List.mem_append.mp mem with mem | mem
    · obtain ⟨op', attempt, asks⟩ := h.own c mem
      exact ⟨op', List.mem_cons_of_mem _ attempt, asks⟩
    · rw [at_ownChanges mem]
      exact ⟨op, List.mem_cons_self, mem⟩
  case pushed change =>
    rw [State.step] at hs
    split at hs <;> cases hs
    case isTrue asked =>
      refine h.records ⟨true, change⟩ fun _ => ?_
      obtain ⟨⟨op, at'⟩, mem, is⟩ := List.any_eq_true.mp asked
      exact ⟨op, at', mem, is⟩
  case others change =>
    cases hs
    exact h.records ⟨false, change⟩ nofun
  case changesSince =>
    rw [State.step] at hs
    split at hs <;> cases hs
    case isTrue idle => exact h.changesSince idle
  case commit fetched =>
    obtain ⟨run, is, rfl⟩ := Option.map_eq_some_iff.mp hs
    exact h.commit is ok
  case notOurs =>
    obtain ⟨a, is, rfl⟩ := Option.map_eq_some_iff.mp hs
    exact h.finish is ok
  case fail =>
    rw [State.step] at hs
    split at hs <;> cases hs
    case isTrue free => exact h.fail (Option.isNone_iff_eq_none.mp free)
  case startResync =>
    rw [State.step] at hs
    split at hs <;> cases hs
    case isTrue idle => exact h.startResync idle ok
  case restart =>
    cases hs
    exact h.restart ok

end Told

section Runs

theorem inv_of_start (h : (syncs threadOf).Start s) : s.Inv threadOf := by
  obtain ⟨history, own, run, applied, reports, attempts, cursor, threads⟩ := h
  have run := Option.isNone_iff_eq_none.mp run
  have applied := Option.isNone_iff_eq_none.mp applied
  have told : s.told = 0 := by rw [told_of_free applied, cursor]
  refine ⟨?_, ?_, ?_, threads, ?_, ?_, ?_, ?_, ?_⟩
  · rw [history]
    exact fun _ h => absurd h List.not_mem_nil
  · rw [own]
    exact fun _ h => absurd h List.not_mem_nil
  · rw [attempts]
    exact fun _ h => absurd h List.not_mem_nil
  · rw [cursor]
    exact Nat.zero_le _
  · rw [run]
    exact fun _ h => absurd h.symm (Option.some_ne_none _)
  · rw [applied]
    exact fun _ h => absurd h.symm (Option.some_ne_none _)
  · refine ⟨?_, ?_, ?_, ?_, ?_⟩
    · rw [reports]
      exact fun _ h => absurd h List.not_mem_nil
    · rw [reports]
      exact fun _ h => absurd h List.not_mem_nil
    · rw [reports]
      exact fun _ h => absurd h List.not_mem_nil
    · rw [reports]
      exact .nil
    · rw [told]
      exact fun place lt => absurd lt (Nat.not_lt_zero _)
  · rw [reports]
    exact fun _ h => absurd h List.not_mem_nil

-- No own change is reported, and each of the others' once, in every run whose steps all meet the condition.
theorem reachable_told (h : (syncs threadOf).Reachable (fun s a => s.cond a = true) s) : s.Told threadOf := by
  have inv := h.invariant (P := fun s : State => s.Inv threadOf) (fun _ => inv_of_start) fun _ _ _ inv ok hs => inv.step ok hs
  exact inv.told

-- A stored message in a thread.
def idleState : State where
  clock   := 0
  threads := fun m => if m = "m1" then some "t1" else none
  cursor  := 0

theorem idle_start : (syncs fun _ => "t1").Start idleState := by
  refine ⟨rfl, rfl, rfl, rfl, rfl, rfl, rfl, fun m t stored => ?_⟩
  rw [idleState] at stored
  dsimp only at stored
  split at stored <;> cases stored
  rfl

-- The outbox archives a message, another client puts a label on it, and incremental sync runs.
def archivedAndLabeled : List Action :=
  [.attempt (.modifyLabels ["m1"] [] ["INBOX"]), .pushed (.labelsRemoved "m1" ["INBOX"]),
   .others (.labelsAdded "m1" ["Label_7"]), .changesSince, .commit [], .notOurs]

theorem archivedAndLabeled_told : ∃ s, (syncs fun _ => "t1").run (fun s a => s.cond a = true) idleState archivedAndLabeled =
    some s ∧ s.reports.map (·.external) = [[⟨"m1", "t1", ["Label_7"], []⟩]] ∧ s.Told fun _ => "t1" := by
  have run : (((syncs fun _ => "t1").run (fun s a => s.cond a = true) idleState archivedAndLabeled).any fun s =>
      s.reports.map (·.external) = [[⟨"m1", "t1", ["Label_7"], []⟩]]) = true := by decide
  obtain ⟨s, hs, is⟩ := (Option.any_eq_true _ _).mp run
  exact ⟨s, hs, of_decide_eq_true is, reachable_told ((System.Reachable.start idle_start).run hs)⟩

-- The program is started anew between the push and the next run.
def restartedAfterPush : List Action :=
  [.attempt (.modifyLabels ["m1"] [] ["INBOX"]), .pushed (.labelsRemoved "m1" ["INBOX"]), .restart, .changesSince,
   .commit [], .notOurs]

theorem own_change_reported : ∃ s, (syncs fun _ => "t1").Reachable (fun _ _ => True) s ∧
    s.history = [⟨true, .labelsRemoved "m1" ["INBOX"]⟩] ∧
    s.reports.map (·.external) = [[⟨"m1", "t1", [], ["INBOX"]⟩]] ∧ ¬s.Told fun _ => "t1" := by
  have run : (((syncs fun _ => "t1").run (fun _ _ => True) idleState restartedAfterPush).any fun s =>
      s.history = [⟨true, .labelsRemoved "m1" ["INBOX"]⟩] ∧ s.reports.map (·.first) = [0] ∧
        s.reports.map (·.last) = [1] ∧ s.reports.map (·.external) = [[⟨"m1", "t1", [], ["INBOX"]⟩]]) = true := by decide
  obtain ⟨s, hs, is⟩ := (Option.any_eq_true _ _).mp run
  obtain ⟨history, first, last, external⟩ := of_decide_eq_true is
  refine ⟨s, (System.Reachable.start idle_start).run hs, history, external, fun told => ?_⟩
  obtain ⟨r, reports⟩ : ∃ r, s.reports = [r] := List.length_eq_one_iff.mp (by simpa using congrArg List.length first)
  rw [reports] at first last external
  simp only [List.map_cons, List.map_nil, List.cons.injEq, and_true] at first last external
  have none_ := told.own r (by simp [reports]) ⟨true, .labelsRemoved "m1" ["INBOX"]⟩
    (by rw [first, last, State.between, history]; simp) rfl "m1" "INBOX" false (by decide)
  rw [external] at none_
  exact absurd none_ (by decide)

end Runs

end State

end Kaluta.OwnChanges
