import Kaluta.Reports.Server

namespace Kaluta.Reports

-- Reports asked for at once, and pages per pull.
def PAGE : Nat := 200

def MAX_PAGES : Nat := 20

-- Pulls a report that does not open or read is tried at before it is given up on.
def MAX_REPORT_TRIES : Nat := 5

-- A report as pulled. Its words are the agent's own.
structure NewReport (φ : Type) where
  server     : String
  serverId   : Nat
  agentId    : String
  receivedAt : Millis
  fields     : φ

-- A report is pulled once from a server.
abbrev NewReport.key {φ : Type} (r : NewReport φ) : String × Nat :=
  (r.server, r.serverId)

structure CloudReport (φ : Type) extends NewReport φ where
  pulledAt      : Millis
  compositionId : Option Nat := none

def CloudReport.setComposition {φ : Type} (r : CloudReport φ) (compositionId : Nat) : CloudReport φ :=
  { r with compositionId }

theorem CloudReport.setComposition_key {φ : Type} (compositionId : Nat) (r : CloudReport φ) :
    (r.setComposition compositionId).key = r.key :=
  rfl

-- An AI composition that a report is recorded as.
structure Composition (φ : Type) where
  id     : Nat
  report : NewReport φ

structure Store (φ : Type) where
  cloudReports : Table (CloudReport φ) (·.key) := ∅
  compositions : Table (Composition φ) (·.id) := ∅

namespace Store

variable {φ : Type} {store store' : Store φ} {r : NewReport φ} {reports : List (NewReport φ)} {recording : Bool}
variable {now : Millis}

-- Keeps a report that is pulled for the first time, and records it as an AI composition when the account records them.
def record (store : Store φ) (recording : Bool) (r : NewReport φ) (now : Millis) : Option (Store φ) := do
  let cloudReports ← store.cloudReports.insert? { r with pulledAt := now }
  if recording then
    let compositionId := store.compositions.nextRowid
    return {
      compositions := store.compositions.insertRow ({ id := ·, report := r }) fun _ => rfl
      cloudReports := cloudReports.update (·.key = r.key) (·.setComposition compositionId)
        (CloudReport.setComposition_key compositionId)
    }
  else
    return { store with cloudReports }

def recordNext (recording : Bool) (now : Millis) (kept : Store φ × Nat) (r : NewReport φ) : Store φ × Nat :=
  match kept.1.record recording r now with
  | none       => kept
  | some store => (store, kept.2 + 1)

-- Keeps the reports of a page, and says how many were new.
def recordReports (store : Store φ) (recording : Bool) (reports : List (NewReport φ)) (now : Millis) : Store φ × Nat :=
  reports.foldl (recordNext recording now) (store, 0)

-- What is held of a server's reports.
def Holds (store : Store φ) (r : NewReport φ) : Prop :=
  ∃ kept ∈ store.cloudReports, kept.toNewReport = r

-- Each composition is of a report that is kept, and no two are of one.
structure Single (store : Store φ) : Prop where
  held : ∀ c ∈ store.compositions, store.Holds c.report
  once : ∀ c ∈ store.compositions, ∀ c' ∈ store.compositions, c.report.key = c'.report.key → c = c'

theorem record_none (h : store.record recording r now = none) : ∃ kept, store.Holds kept ∧ kept.key = r.key := by
  by_contra none
  have free : ∀ kept ∈ store.cloudReports, kept.key ≠ r.key := fun kept mem same => none ⟨_, ⟨kept, mem, rfl⟩, same⟩
  rw [record, Table.insert?_eq_some.mpr ⟨free, rfl⟩] at h
  cases recording <;> cases h

-- The composition that is set does not change what was reported.
theorem holds_setComposition {t : Table (CloudReport φ) (·.key)} {p : CloudReport φ → Bool} {compositionId : Nat}
    (kept : NewReport φ) :
    (∃ c ∈ t.update p (·.setComposition compositionId) (CloudReport.setComposition_key compositionId),
      c.toNewReport = kept) ↔ ∃ c ∈ t, c.toNewReport = kept := by
  simp only [Table.mem_update]
  constructor
  · rintro ⟨c, ⟨mem, _⟩ | ⟨c, mem, _, rfl⟩, rfl⟩
    · exact ⟨c, mem, rfl⟩
    · exact ⟨c, mem, rfl⟩
  · rintro ⟨c, mem, rfl⟩
    cases hp : p c
    case true  => exact ⟨c.setComposition compositionId, .inr ⟨c, mem, hp, rfl⟩, rfl⟩
    case false => exact ⟨c, .inl ⟨mem, hp⟩, rfl⟩

theorem record_some (h : store.record recording r now = some store') :
    (∀ kept, store.Holds kept → kept.key ≠ r.key) ∧ (∀ kept, store'.Holds kept ↔ store.Holds kept ∨ kept = r) ∧
    ∀ c, c ∈ store'.compositions ↔
      c ∈ store.compositions ∨ recording = true ∧ c = ⟨store.compositions.nextRowid, r⟩ := by
  obtain ⟨cloudReports, inserted, h⟩ := Option.bind_eq_some_iff.mp h
  have holds : ∀ kept, (∃ c ∈ cloudReports, c.toNewReport = kept) ↔ store.Holds kept ∨ kept = r := fun kept => by
    simp only [Table.mem_insert? inserted, or_and_right, exists_or, exists_eq_left, Holds]
    exact or_congr_right eq_comm
  refine ⟨?_, ?_⟩
  · rintro _ ⟨kept, mem, rfl⟩
    obtain ⟨free, _⟩ := Table.insert?_eq_some.mp inserted
    exact free kept mem
  · cases recording
    case false =>
      cases h
      exact ⟨holds, fun c => by simp⟩
    case true =>
      cases h
      refine ⟨fun kept => ?_, fun c => by simp [Table.mem_insertRow]⟩
      rw [← holds kept]
      exact holds_setComposition kept

theorem Single.record (h : store.Single) (hs : store.record recording r now = some store') : store'.Single := by
  have ⟨free, holds, composed⟩ := record_some hs
  refine ⟨fun c mem => ?_, fun c mem c' mem' same => ?_⟩
  · obtain mem | ⟨_, rfl⟩ := (composed c).mp mem
    · exact (holds _).mpr (.inl (h.held c mem))
    · exact (holds _).mpr (.inr rfl)
  · obtain mem | ⟨_, rfl⟩ := (composed c).mp mem <;> obtain mem' | ⟨_, rfl⟩ := (composed c').mp mem'
    · exact h.once c mem c' mem' same
    · exact absurd same (free _ (h.held c mem))
    · exact absurd same.symm (free _ (h.held c' mem'))
    · rfl

-- What a page of reports makes of the store.
theorem recordReports_spec (h : store.Single) (recording : Bool) (reports : List (NewReport φ)) (now : Millis) :
    (store.recordReports recording reports now).1.Single ∧
    (∀ kept, store.Holds kept → (store.recordReports recording reports now).1.Holds kept) ∧
    (∀ r ∈ reports, ∃ kept, (store.recordReports recording reports now).1.Holds kept ∧ kept.key = r.key) ∧
    ∀ kept, (store.recordReports recording reports now).1.Holds kept → store.Holds kept ∨ kept ∈ reports := by
  rw [recordReports]
  generalize 0 = new
  induction reports generalizing store new
  case nil => exact ⟨h, fun _ => id, nofun, fun _ => .inl⟩
  case cons r reports ih =>
    rw [List.foldl_cons, recordNext]
    cases hs : store.record recording r now
    case none =>
      obtain ⟨kept, held, same⟩ := record_none hs
      have ⟨single, keeps, holds, only⟩ := ih h new
      refine ⟨single, keeps, fun r' mem => ?_, fun kept held => (only kept held).imp_right (List.mem_cons_of_mem r)⟩
      obtain rfl | mem := List.mem_cons.mp mem
      · exact ⟨kept, keeps kept held, same⟩
      · exact holds r' mem
    case some store' =>
      have ⟨_, held, _⟩ := record_some hs
      have ⟨single, keeps, holds, only⟩ := ih (h.record hs) (new + 1)
      refine ⟨single, fun kept hk => keeps kept ((held kept).mpr (.inl hk)), fun r' mem => ?_, fun kept hk => ?_⟩
      · obtain rfl | mem := List.mem_cons.mp mem
        · exact ⟨r', keeps r' ((held r').mpr (.inr rfl)), rfl⟩
        · exact holds r' mem
      · obtain hk | mem := only kept hk
        · exact ((held kept).mp hk).imp_right fun eq => List.mem_cons.mpr (.inl eq)
        · exact .inr (List.mem_cons_of_mem r mem)

end Store

-- How far a page may be acknowledged, and the tries that failed since the app started.
structure Acknowledgeable where
  failures : Nat → Nat
  upTo     : Option Nat := none
  givenUp  : List Nat := []
  held     : Bool := false

namespace Acknowledgeable

variable {φ : Type} {failures : Nat → Nat} {read done : List (Nat × Option (NewReport φ))} {a : Acknowledgeable}

def settle (failures : Nat → Nat) (id tries : Nat) : Nat → Nat :=
  fun i => if i = id then tries else failures i

def next (a : Acknowledgeable) (e : Nat × Option (NewReport φ)) : Acknowledgeable :=
  let (id, report) := e
  let a :=
    if report.isSome then
      { a with failures := settle a.failures id 0 }
    else
      let tries := a.failures id + 1
      if MAX_REPORT_TRIES ≤ tries ∧ !a.held then
        { a with failures := settle a.failures id 0, givenUp := a.givenUp ++ [id] }
      else
        { a with failures := settle a.failures id tries, held := true }
  if a.held then a else { a with upTo := some id }

-- Up to the last of the leading run that read or was given up on.
def acknowledgeable (failures : Nat → Nat) (read : List (Nat × Option (NewReport φ))) : Acknowledgeable :=
  read.foldl next { failures }

-- What is known when part of a page is done.
structure Told (failures : Nat → Nat) (done : List (Nat × Option (NewReport φ))) (a : Acknowledgeable) : Prop where
  led      : a.held = false → ∀ e ∈ done, e.2.isSome ∨ e.1 ∈ a.givenUp
  upTo     : ∀ u ∈ a.upTo, (∃ e ∈ done, e.1 = u) ∧ ∀ e ∈ done, e.1 ≤ u → e.2.isSome ∨ e.1 ∈ a.givenUp
  givenUp  : ∀ i ∈ a.givenUp, (i, none) ∈ done ∧ MAX_REPORT_TRIES ≤ failures i + 1
  failures : ∀ i, a.failures i ≤ failures i ∨ (i, none) ∈ done ∧ a.failures i ≤ failures i + 1

section Next

variable {id : Nat} {report : NewReport φ}

theorem next_read : a.next (id, some report) =
    { a with failures := settle a.failures id 0, upTo := if a.held then a.upTo else some id } := by
  cases held : a.held <;> simp [next, held]

theorem next_givenUp (tries : MAX_REPORT_TRIES ≤ a.failures id + 1) (held : a.held = false) :
    a.next (id, (none : Option (NewReport φ))) =
      { a with failures := settle a.failures id 0, givenUp := a.givenUp ++ [id], upTo := some id } := by
  simp [next, tries, held]

theorem next_held (h : ¬(MAX_REPORT_TRIES ≤ a.failures id + 1 ∧ a.held = false)) :
    a.next (id, (none : Option (NewReport φ))) =
      { a with failures := settle a.failures id (a.failures id + 1), held := true } := by
  simp only [next, Option.isSome_none, Bool.false_eq_true, if_false, Bool.not_eq_true', if_neg h, if_true]

end Next

namespace Told

theorem behind (h : Told failures done a) {id : Nat} (later : ∀ d ∈ done, d.1 < id) : ∀ u ∈ a.upTo, u < id := by
  intro u hu
  obtain ⟨⟨d, mem, rfl⟩, _⟩ := h.upTo u hu
  exact later d mem

theorem settle (h : Told failures done a) (e : Nat × Option (NewReport φ)) {tries : Nat}
    (few : tries ≤ failures e.1 ∨ e.2 = none ∧ tries ≤ failures e.1 + 1) (i : Nat) :
    settle a.failures e.1 tries i ≤ failures i ∨
      (i, none) ∈ done ++ [e] ∧ settle a.failures e.1 tries i ≤ failures i + 1 := by
  rw [Acknowledgeable.settle]
  split
  case isTrue is =>
    subst is
    refine few.imp_right fun ⟨unread, few⟩ => ⟨List.mem_append_right _ ?_, few⟩
    rw [List.mem_singleton, ← unread]
  case isFalse => exact (h.failures i).imp_right (And.imp_left (List.mem_append_left _))

-- What is behind the mark stays as it is where the mark does, or is done where the run goes on.
theorem next (h : Told failures done a) (e : Nat × Option (NewReport φ)) (later : ∀ d ∈ done, d.1 < e.1) :
    Told failures (done ++ [e]) (a.next e) := by
  obtain ⟨id, report⟩ := e
  have behind := h.behind later
  have started : a.failures id ≤ failures id := (h.failures id).elim (fun le => le) fun ⟨mem, _⟩ =>
    absurd (later _ mem) (Nat.lt_irrefl _)
  have or_last : ∀ {d}, d ∈ done ++ [(id, report)] → d ∈ done ∨ d = (id, report) := fun mem =>
    (List.mem_append.mp mem).imp_right List.mem_singleton.mp
  have unmoved : ∀ u ∈ a.upTo, (∃ d ∈ done ++ [(id, report)], d.1 = u) ∧
      ∀ d ∈ done ++ [(id, report)], d.1 ≤ u → d.2.isSome ∨ d.1 ∈ a.givenUp := by
    intro u hu
    have ⟨⟨d, mem, is⟩, all⟩ := h.upTo u hu
    refine ⟨⟨d, List.mem_append_left _ mem, is⟩, fun d mem le => ?_⟩
    obtain mem | rfl := or_last mem
    · exact all d mem le
    · exact absurd le (Nat.not_le.mpr (behind u hu))
  have last : (id, report) ∈ done ++ [(id, report)] := List.mem_append_right _ List.mem_cons_self
  cases report
  case some report =>
    have led : a.held = false → ∀ d ∈ done ++ [(id, some report)], d.2.isSome ∨ d.1 ∈ a.givenUp := by
      intro held d mem
      obtain mem | rfl := or_last mem
      · exact h.led held d mem
      · exact .inl rfl
    rw [next_read]
    refine ⟨led, ?_, fun i hi => ?_, h.settle (id, _) (.inl (Nat.zero_le _))⟩
    · cases held : a.held
      case true  => exact unmoved
      case false =>
        intro u hu
        cases hu
        exact ⟨⟨_, last, rfl⟩, fun d mem _ => led held d mem⟩
    · exact (h.givenUp i hi).imp_left (List.mem_append_left _)
  case none =>
    by_cases given : MAX_REPORT_TRIES ≤ a.failures id + 1 ∧ a.held = false
    case pos =>
      have ⟨tries, held⟩ := given
      have led : ∀ d ∈ done ++ [(id, none)], d.2.isSome ∨ d.1 ∈ a.givenUp ++ [id] := by
        intro d mem
        obtain mem | rfl := or_last mem
        · exact (h.led held d mem).imp_right (List.mem_append_left _)
        · exact .inr (List.mem_append_right _ List.mem_cons_self)
      rw [next_givenUp tries held]
      refine ⟨fun _ => led, fun u hu => ?_, fun i hi => ?_, h.settle (id, _) (.inl (Nat.zero_le _))⟩
      · cases hu
        exact ⟨⟨_, last, rfl⟩, fun d mem _ => led d mem⟩
      · obtain hi | hi := List.mem_append.mp hi
        · exact (h.givenUp i hi).imp_left (List.mem_append_left _)
        · obtain rfl := List.mem_singleton.mp hi
          exact ⟨last, tries.trans (Nat.succ_le_succ started)⟩
    case neg =>
      rw [next_held given]
      exact ⟨nofun, unmoved, fun i hi => (h.givenUp i hi).imp_left (List.mem_append_left _),
        h.settle (id, none) (.inr ⟨rfl, Nat.succ_le_succ started⟩)⟩

theorem foldl (h : Told failures done a) (sorted : (done ++ read).Pairwise (·.1 < ·.1)) :
    Told failures (done ++ read) (read.foldl Acknowledgeable.next a) := by
  induction read generalizing done a
  case nil => rwa [List.append_nil]
  case cons e read ih =>
    have later := (List.pairwise_append.mp sorted).right.right
    rw [List.append_cons] at sorted ⊢
    exact ih (h.next e fun d mem => later d mem e List.mem_cons_self) sorted

end Told

theorem told_acknowledgeable (failures : Nat → Nat) (sorted : read.Pairwise (·.1 < ·.1)) :
    Told failures read (acknowledgeable failures read) := by
  have start : Told failures ([] : List (Nat × Option (NewReport φ))) { failures } :=
    ⟨fun _ => nofun, nofun, nofun, fun _ => .inl le_rfl⟩
  exact start.foldl sorted

end Acknowledgeable

end Kaluta.Reports
