import Kaluta.Lib.Table
import Kaluta.Store.Basic
import Mathlib.Data.List.Sort

-- The reports that cloud agents file with the rules server about what they sent, until the app has them.
namespace Kaluta.Reports

-- Reports a mailbox keeps for the app; the oldest go beyond it.
def MAX_PENDING_REPORTS : Nat := 10000

-- Reports are kept this long, pulled or not.
def REPORT_RETENTION_MS : Millis := 30 * 24 * 3600000

-- Reports of one list at most.
def MAX_LIST : Nat := 500

-- A report, with its words or the box that they are sealed in.
structure ReportRow (γ : Type) where
  id         : Nat := 0
  mailboxId  : Nat
  agentId    : String
  receivedAt : Millis
  content    : γ

-- The older first.
def ReportRow.le {γ : Type} (r r' : ReportRow γ) : Bool :=
  r.id ≤ r'.id

structure Db (γ : Type) where
  reports        : Table (ReportRow γ) (·.id) := ∅
  nextId         : Nat := 1 -- An id is not given a second time.
  reportsDropped : Nat → Nat := fun _ => 0

namespace Db

variable {γ : Type} {db db' : Db γ} {r : ReportRow γ} {gone : List (ReportRow γ)} {now : Millis}

-- The newest of the mailbox's reports that are beyond those it may keep.
def cutoff (reports : Table (ReportRow γ) (·.id)) (mailboxId maxPending : Nat) : Option Nat :=
  (((reports.rows.filter (·.mailboxId = mailboxId)).map (·.id)).mergeSort (fun i j => j ≤ i))[maxPending]?

def isBeyond (reports : Table (ReportRow γ) (·.id)) (mailboxId maxPending : Nat) (r : ReportRow γ) : Bool :=
  r.mailboxId = mailboxId && (cutoff reports mailboxId maxPending).any (r.id ≤ ·)

-- Stores a report, and drops the oldest of its mailbox's. Those it dropped.
def insertReport (db : Db γ) (r : ReportRow γ) (maxPending : Nat) : Option (Db γ × List (ReportRow γ)) := do
  let reports ← db.reports.insert? { r with id := db.nextId }
  let isBeyond := isBeyond reports r.mailboxId maxPending
  let dropped := reports.rows.filter isBeyond
  return ({
    reports        := reports.delete isBeyond
    nextId         := db.nextId + 1
    reportsDropped := fun m => if m = r.mailboxId then db.reportsDropped m + dropped.length else db.reportsDropped m
  }, dropped)

-- A mailbox's reports after one, the oldest first.
def reportsAfter (db : Db γ) (mailboxId after limit : Nat) : List (ReportRow γ) :=
  ((db.reports.rows.filter fun r => r.mailboxId = mailboxId ∧ after < r.id).mergeSort ReportRow.le).take limit

def isAcked (mailboxId upTo : Nat) (r : ReportRow γ) : Bool :=
  r.mailboxId = mailboxId && r.id ≤ upTo

def ackReports (db : Db γ) (mailboxId upTo : Nat) : Db γ :=
  { db with reports := db.reports.delete (isAcked mailboxId upTo) }

def isOld (now : Millis) (r : ReportRow γ) : Bool :=
  r.receivedAt < now - REPORT_RETENTION_MS

def sweepReports (db : Db γ) (now : Millis) : Db γ :=
  { db with reports := db.reports.delete (isOld now) }

def file (db : Db γ) (r : ReportRow γ) (now : Millis) : Option (Db γ × List (ReportRow γ)) :=
  (db.sweepReports now).insertReport { r with receivedAt := now } MAX_PENDING_REPORTS

-- A page of a mailbox's reports, and whether there are more.
def list (db : Db γ) (mailboxId after limit : Nat) (now : Millis) : Db γ × List (ReportRow γ) × Bool :=
  let limit := max 1 (min limit MAX_LIST)
  let db := db.sweepReports now
  let rows := db.reportsAfter mailboxId after (limit + 1)
  (db, rows.take limit, limit < rows.length)

theorem mem_ackReports {mailboxId upTo : Nat} :
    r ∈ (db.ackReports mailboxId upTo).reports ↔ r ∈ db.reports ∧ isAcked mailboxId upTo r = false :=
  Table.mem_delete

theorem mem_sweepReports : r ∈ (db.sweepReports now).reports ↔ r ∈ db.reports ∧ isOld now r = false :=
  Table.mem_delete

theorem insertReport_spec {maxPending : Nat} (h : db.insertReport r maxPending = some (db', gone)) :
    db'.nextId = db.nextId + 1 ∧
    (∀ r', r' ∈ db'.reports ∨ r' ∈ gone ↔ r' ∈ db.reports ∨ r' = { r with id := db.nextId }) ∧
    (∀ m, db'.reportsDropped m = db.reportsDropped m + gone.countP (·.mailboxId = m)) := by
  rw [insertReport] at h
  obtain ⟨reports, inserted, h⟩ := Option.bind_eq_some_iff.mp h
  cases h
  refine ⟨rfl, fun r' => ?_, fun m => ?_⟩
  · rw [Table.mem_delete, List.mem_filter, Table.mem_rows, ← and_or_left, ← Table.mem_insert? inserted]
    exact and_iff_left (Bool.eq_false_or_eq_true _).symm
  · simp only
    have same : ∀ r' ∈ reports.rows.filter (isBeyond reports r.mailboxId maxPending), r'.mailboxId = r.mailboxId := by
      intro r' mem
      have := (List.mem_filter.mp mem).right
      rw [isBeyond, Bool.and_eq_true] at this
      exact of_decide_eq_true this.left
    split
    case isTrue is =>
      rw [List.countP_eq_length.mpr fun r' mem => decide_eq_true ((same r' mem).trans is.symm)]
    case isFalse not =>
      rw [List.countP_eq_zero.mpr fun r' mem => ?_, Nat.add_zero]
      simpa [same r' mem] using Ne.symm not

-- Reports no two of which have one id are sorted by it.
theorem sorted_mergeSort {rows : List (ReportRow γ)} (apart : rows.Pairwise (·.id ≠ ·.id)) :
    (rows.mergeSort ReportRow.le).Pairwise (·.id < ·.id) := by
  have trans : ∀ a b c : ReportRow γ, a.le b → b.le c → a.le c := fun _ _ _ hab hbc =>
    decide_eq_true (Nat.le_trans (of_decide_eq_true hab) (of_decide_eq_true hbc))
  have total : ∀ a b : ReportRow γ, a.le b || b.le a := fun a b => by
    simp [ReportRow.le, Nat.le_total]
  have sorted := List.pairwise_mergeSort trans total rows
  have apart := apart.perm (List.mergeSort_perm rows ReportRow.le).symm Ne.symm
  exact (sorted.and apart).imp fun h => Nat.lt_of_le_of_ne (of_decide_eq_true h.left) h.right

-- What is known of a page of a mailbox's reports.
structure Page (db : Db γ) (mailboxId after : Nat) (rows : List (ReportRow γ)) : Prop where
  sorted : rows.Pairwise (·.id < ·.id)
  later  : ∀ r ∈ rows, after < r.id
  listed : ∀ r ∈ rows, r ∈ db.reports ∧ r.mailboxId = mailboxId
  whole  : ∀ r ∈ db.reports, r.mailboxId = mailboxId → after < r.id → ∀ last ∈ rows, r.id ≤ last.id → r ∈ rows

theorem Page.take {mailboxId after : Nat} {rows : List (ReportRow γ)} (h : Page db mailboxId after rows) (n : Nat) :
    Page db mailboxId after (rows.take n) where
  sorted := h.sorted.sublist (List.take_sublist n rows)
  later r mem := h.later r (List.mem_of_mem_take mem)
  listed r mem := h.listed r (List.mem_of_mem_take mem)
  whole r mem ours late last hl le := by
    have mem := h.whole r mem ours late last (List.mem_of_mem_take hl) le
    have sorted := h.sorted
    rw [← List.take_append_drop n rows] at mem sorted
    refine (List.mem_append.mp mem).elim id fun mem => ?_
    exact absurd le (Nat.not_le.mpr ((List.pairwise_append.mp sorted).right.right last hl r mem))

theorem page_reportsAfter (db : Db γ) (mailboxId after limit : Nat) :
    Page db mailboxId after (db.reportsAfter mailboxId after limit) := by
  refine Page.take ?_ limit
  have mem_iff : ∀ r, r ∈ (db.reports.rows.filter fun r => r.mailboxId = mailboxId ∧ after < r.id).mergeSort
      ReportRow.le ↔ r ∈ db.reports ∧ r.mailboxId = mailboxId ∧ after < r.id := fun r => by
    rw [List.mem_mergeSort, List.mem_filter, decide_eq_true_iff, Table.mem_rows]
  refine ⟨?_, fun r mem => ((mem_iff r).mp mem).right.right, fun r mem => ?_, fun r mem ours late _ _ _ => ?_⟩
  · exact sorted_mergeSort ((List.pairwise_map.mp db.reports.nodup).sublist List.filter_sublist)
  · have ⟨mem, ours, _⟩ := (mem_iff r).mp mem
    exact ⟨mem, ours⟩
  · exact (mem_iff r).mpr ⟨mem, ours, late⟩

theorem page_list (db : Db γ) (mailboxId after limit : Nat) (now : Millis) :
    Page (db.list mailboxId after limit now).1 mailboxId after (db.list mailboxId after limit now).2.1 :=
  (page_reportsAfter _ _ _ _).take _

end Db

end Kaluta.Reports
