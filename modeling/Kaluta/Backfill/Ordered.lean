import Mathlib.Algebra.Order.Ring.Int
import Mathlib.Data.List.Nodup
import Kaluta.Lib.Fallible
import Kaluta.Lib.Execution

-- The backfill queue: message ids waiting for a full fetch, drained in priority order.
namespace Kaluta.Backfill

-- Queue priorities at or above this want headers only.
def HEADERS_ONLY : Nat := 10

inductive BodyState
  | metadata
  | full
  deriving DecidableEq

-- What of each message is stored.
abbrev Messages := String → Option BodyState

structure Row where
  seq      : Int
  priority : Nat
  gmailId  : String
  deriving DecidableEq

-- `sequence` is what AUTOINCREMENT gave out last.
structure Queue where
  rows     : List Row := []
  sequence : Int := 0
  deriving DecidableEq

namespace Queue

-- Fails where a column that is unique would not be.
def insert (q : Queue) (seq : Int) (priority : Nat) (gmailId : String) : Option Queue :=
  if q.rows.any fun r => r.seq = seq || r.gmailId = gmailId then none
  else some { rows := q.rows ++ [{ seq, priority, gmailId }], sequence := max q.sequence seq }

def delete (q : Queue) (p : Row → Bool) : Queue :=
  { q with rows := q.rows.filter (!p ·) }

def update (q : Queue) (p : Row → Bool) (f : Nat → Nat) : Queue :=
  { q with rows := q.rows.map fun r => if p r then { r with priority := f r.priority } else r }

end Queue

section Enqueue

variable (messages : Messages)

-- Whether a message needs no place in the queue at a priority.
def exists_ (priority : Nat) (id : String) : Bool :=
  if priority ≥ HEADERS_ONLY then (messages id).isSome else messages id = some .full

def enqueueOne (priority : Nat) (refetch : Bool) : Queue × Nat → String → Option (Queue × Nat)
  | (q, queued), id =>
    if !refetch && exists_ messages priority id then some (q, queued)
    else match (q.rows.find? (·.gmailId = id)).map (·.priority) with
      | none   => (q.insert (q.sequence + 1) priority id).map (·, queued + 1)
      | some p =>
        if priority < p then some (q.update (·.gmailId = id) fun _ => priority, queued) else some (q, queued)

-- Queues ids at a priority, keeping the more urgent one if an id is already queued.
def enqueue (priority : Nat) (ids : List String) (refetch : Bool) (q : Queue) : Option (Queue × Nat) :=
  ids.foldlM (enqueueOne messages priority refetch) (q, 0)

def urgentOne : Queue × Nat → String → Option (Queue × Nat)
  | (q, queued), id =>
    if messages id = some .full then some (q, queued)
    else
      let q := q.delete (·.gmailId = id)
      (q.insert ((q.rows.map (·.seq)).min?.getD 0 - 1) 0 id).map (·, queued + 1)

-- Queues ids at the front of the most urgent priority, last-to-first so that the caller's order is kept.
def enqueueUrgent (ids : List String) (q : Queue) : Option (Queue × Nat) :=
  ids.reverse.foldlM (urgentOne messages) (q, 0)

end Enqueue

-- `ORDER BY priority, seq`
def Row.le (r r' : Row) : Bool :=
  r.priority < r'.priority || r.priority = r'.priority && r.seq ≤ r'.seq

def ordered (rows : List Row) : List Row :=
  rows.mergeSort Row.le

-- The next ids waiting for bodies, most urgent first.
def peek (limit : Nat) (q : Queue) : List String :=
  ((ordered (q.rows.filter (·.priority < HEADERS_ONLY))).take limit).map (·.gmailId)

-- What a headers pass should fetch: ids that have no row yet, and every headers-only one.
def forHeaders (messages : Messages) (limit : Nat) (q : Queue) : List String :=
  ((ordered (q.rows.filter fun r => r.priority ≥ HEADERS_ONLY || messages r.gmailId = none)).take limit).map (·.gmailId)

-- Drops these ids if they are queued for headers only.
def removeHeadersOnly (ids : List String) (q : Queue) : Queue × Nat :=
  ids.foldl (fun (q, dropped) id =>
    let named (r : Row) : Bool := r.gmailId = id && r.priority ≥ HEADERS_ONLY
    (q.delete named, dropped + q.rows.countP named)) (q, 0)

-- Turns every headers-only id into a body fetch at its tier's priority.
def promoteHeadersOnly (q : Queue) : Queue × Nat :=
  (q.update (·.priority ≥ HEADERS_ONLY) (· - HEADERS_ONLY), q.rows.countP (·.priority ≥ HEADERS_ONLY))

def remove (ids : List String) (q : Queue) : Queue :=
  ids.foldl (fun q id => q.delete (·.gmailId = id)) q

inductive Operation
  | enqueue (priority : Nat) (ids : List String) (refetch : Bool)
  | enqueueUrgent (ids : List String)
  | peek (limit : Nat)
  | forHeaders (limit : Nat)
  | removeHeadersOnly (ids : List String)
  | promoteHeadersOnly
  | remove (ids : List String)

-- What is stored changes as it likes between the operations.
def step (q : Queue) : Messages × Operation → Option Queue
  | (messages, .enqueue priority ids refetch) => (enqueue messages priority ids refetch q).map Prod.fst
  | (messages, .enqueueUrgent ids)            => (enqueueUrgent messages ids q).map Prod.fst
  | (_, .peek _)                              => some q
  | (_, .forHeaders _)                        => some q
  | (_, .removeHeadersOnly ids)               => some (removeHeadersOnly ids q).1
  | (_, .promoteHeadersOnly)                  => some (promoteHeadersOnly q).1
  | (_, .remove ids)                          => some (remove ids q)

def system : System Queue (Messages × Operation) where
  Start := (· = {})
  step  := step

-- Who comes when in the backfill queue, over whole runs.
section Runs

variable {q q' : Queue} {r r' : Row} {id : String} {ids : List String} {messages : Messages}

-- Each id is queued once, at a place of its own, of those that were given out.
structure Sound (q : Queue) : Prop where
  ids    : (q.rows.map (·.gmailId)).Nodup
  seqs   : (q.rows.map (·.seq)).Nodup
  given  : ∀ r ∈ q.rows, r.seq ≤ q.sequence
  nonneg : 0 ≤ q.sequence

namespace Sound

theorem empty : Sound {} where
  ids    := List.nodup_nil
  seqs   := List.nodup_nil
  given  := nofun
  nonneg := le_rfl

theorem insert (h : Sound q) (seq : Int) (priority : Nat) (id : String) (id_new : ∀ r ∈ q.rows, r.gmailId ≠ id)
    (seq_new : ∀ r ∈ q.rows, r.seq ≠ seq) :
    ∃ q', q.insert seq priority id = some q' ∧ q'.rows = q.rows ++ [{ seq, priority, gmailId := id }] ∧
      q'.sequence = max q.sequence seq ∧ Sound q' := by
  have unique : (q.rows.any fun r => r.seq = seq || r.gmailId = id) = false := by
    simp only [List.any_eq_false, Bool.or_eq_true, decide_eq_true_iff, not_or]
    exact fun r hr => ⟨seq_new r hr, id_new r hr⟩
  refine ⟨_, by rw [Queue.insert, unique]; rfl, rfl, rfl, ?_, ?_, ?_, h.nonneg.trans (le_max_left _ _)⟩
  · rw [List.map_append, List.nodup_append]
    refine ⟨h.ids, List.nodup_singleton id, ?_⟩
    rintro _ mem _ (_ | ⟨_, ⟨⟩⟩)
    obtain ⟨r, hr, rfl⟩ := List.mem_map.mp mem
    exact id_new r hr
  · rw [List.map_append, List.nodup_append]
    refine ⟨h.seqs, List.nodup_singleton seq, ?_⟩
    rintro _ mem _ (_ | ⟨_, ⟨⟩⟩)
    obtain ⟨r, hr, rfl⟩ := List.mem_map.mp mem
    exact seq_new r hr
  · intro r mem
    rcases List.mem_append.mp mem with mem | mem
    · exact (h.given r mem).trans (le_max_left _ _)
    · cases List.mem_singleton.mp mem
      exact le_max_right _ _

theorem delete (h : Sound q) (p : Row → Bool) : Sound (q.delete p) where
  ids    := h.ids.sublist (List.filter_sublist.map _)
  seqs   := h.seqs.sublist (List.filter_sublist.map _)
  given  := fun r mem => h.given r (List.mem_of_mem_filter mem)
  nonneg := h.nonneg

theorem update (h : Sound q) (p : Row → Bool) (f : Nat → Nat) : Sound (q.update p f) := by
  have same {α : Type} {g : Row → α} (hg : ∀ r priority, g { r with priority } = g r) :
      (q.update p f).rows.map g = q.rows.map g := by
    rw [Queue.update, List.map_map]
    refine List.map_congr_left fun r _ => ?_
    rw [Function.comp_apply]
    split
    · exact hg r _
    · rfl
  refine ⟨?_, ?_, ?_, h.nonneg⟩
  · rw [same fun _ _ => rfl]
    exact h.ids
  · rw [same fun _ _ => rfl]
    exact h.seqs
  · intro r mem
    have : r.seq ∈ (q.update p f).rows.map (·.seq) := List.mem_map_of_mem mem
    rw [same fun _ _ => rfl] at this
    obtain ⟨r', mem', eq⟩ := List.mem_map.mp this
    exact eq ▸ h.given r' mem'

theorem eq_of_id (h : Sound q) (mem : r ∈ q.rows) (mem' : r' ∈ q.rows) (eq : r.gmailId = r'.gmailId) : r = r' :=
  List.inj_on_of_nodup_map h.ids mem mem' eq

theorem eq_of_seq (h : Sound q) (mem : r ∈ q.rows) (mem' : r' ∈ q.rows) (eq : r.seq = r'.seq) : r = r' :=
  List.inj_on_of_nodup_map h.seqs mem mem' eq

end Sound

-- What enqueueing makes of a queue: its ids stay where they are, no less urgent, and others come behind.
structure Raised (q q' : Queue) : Prop where
  kept     : ∀ r ∈ q.rows, ∃ r' ∈ q'.rows, r'.gmailId = r.gmailId ∧ r'.seq = r.seq ∧ r'.priority ≤ r.priority
  new      : ∀ r' ∈ q'.rows, (∃ r ∈ q.rows, r.gmailId = r'.gmailId ∧ r.seq = r'.seq) ∨ q.sequence < r'.seq
  sequence : q.sequence ≤ q'.sequence

theorem Raised.refl (q : Queue) : Raised q q where
  kept     := fun r mem => ⟨r, mem, rfl, rfl, le_rfl⟩
  new      := fun r mem => .inl ⟨r, mem, rfl, rfl⟩
  sequence := le_rfl

theorem Raised.trans (h : Raised q q') (h' : Raised q' q'') : Raised q q'' where
  kept r mem := by
    obtain ⟨r', mem', id', seq', le'⟩ := h.kept r mem
    obtain ⟨r'', mem'', id'', seq'', le''⟩ := h'.kept r' mem'
    exact ⟨r'', mem'', id''.trans id', seq''.trans seq', le''.trans le'⟩
  new r'' mem'' := by
    rcases h'.new r'' mem'' with ⟨r', mem', id', seq'⟩ | lt
    · rcases h.new r' mem' with ⟨r, mem, id, seq⟩ | lt
      · exact .inl ⟨r, mem, id.trans id', seq.trans seq'⟩
      · exact .inr (seq' ▸ lt)
    · exact .inr (h.sequence.trans_lt lt)
  sequence := h.sequence.trans h'.sequence

theorem enqueueOne_spec (messages : Messages) (h : Sound q) (priority : Nat) (refetch : Bool) (queued : Nat)
    (id : String) :
    ∃ q' n, enqueueOne messages priority refetch (q, queued) id = some (q', n) ∧ Sound q' ∧ Raised q q' := by
  simp only [enqueueOne]
  split_ifs
  case pos => exact ⟨q, _, rfl, h, .refl q⟩
  case neg =>
    split
    case h_1 absent =>
      rw [Option.map_eq_none_iff, List.find?_eq_none] at absent
      obtain ⟨q', is, rows, sequence, sound⟩ := h.insert (q.sequence + 1) priority id
        (fun r mem => of_decide_eq_false (Bool.eq_false_iff.mpr (absent r mem)))
        (fun r mem eq => absurd (h.given r mem) (by omega))
      refine ⟨q', _, by rw [is]; rfl, sound, ?_, ?_, sequence ▸ le_max_left _ _⟩
      · exact fun r mem => ⟨r, rows ▸ List.mem_append_left _ mem, rfl, rfl, le_rfl⟩
      · intro r mem
        rcases List.mem_append.mp (rows ▸ mem) with mem | mem
        · exact .inl ⟨r, mem, rfl, rfl⟩
        · cases List.mem_singleton.mp mem
          exact .inr (Int.lt_succ q.sequence)
    case h_2 p found =>
      split_ifs with lt
      case neg => exact ⟨q, _, rfl, h, .refl q⟩
      case pos =>
        obtain ⟨old, is, rfl⟩ := Option.map_eq_some_iff.mp found
        have named : old.gmailId = id := by simpa using List.find?_some is
        refine ⟨_, _, rfl, h.update _ _, ?_, ?_, le_rfl⟩
        · intro r mem
          refine ⟨_, List.mem_map_of_mem mem, ?_⟩
          split
          case isTrue eq =>
            rw [h.eq_of_id mem (List.mem_of_find?_eq_some is) ((of_decide_eq_true eq).trans named.symm)]
            exact ⟨rfl, rfl, lt.le⟩
          case isFalse => exact ⟨rfl, rfl, le_rfl⟩
        · intro r' mem
          obtain ⟨r, old, rfl⟩ := List.mem_map.mp mem
          refine .inl ⟨r, old, ?_⟩
          split <;> exact ⟨rfl, rfl⟩

theorem enqueue_spec (messages : Messages) (h : Sound q) (priority : Nat) (ids : List String) (refetch : Bool) :
    ∃ q' n, enqueue messages priority ids refetch q = some (q', n) ∧ Sound q' ∧ Raised q q' := by
  rw [enqueue]
  generalize 0 = queued
  induction ids generalizing q queued
  case nil => exact ⟨q, queued, rfl, h, .refl q⟩
  case cons id ids ih =>
    obtain ⟨q₁, n₁, is₁, sound₁, raised₁⟩ := enqueueOne_spec messages h priority refetch queued id
    obtain ⟨q', n, is, sound, raised⟩ := ih sound₁ n₁
    exact ⟨q', n, by rw [List.foldlM_cons, is₁]; exact is, sound, raised₁.trans raised⟩

theorem le_trans {r₁ r₂ r₃ : Row} (h : r₁.le r₂ = true) (h' : r₂.le r₃ = true) : r₁.le r₃ = true := by
  simp only [Row.le, Bool.or_eq_true, Bool.and_eq_true, decide_eq_true_iff] at *
  omega

theorem le_total (r r' : Row) : (r.le r' || r'.le r) = true := by
  simp only [Row.le, Bool.or_eq_true, Bool.and_eq_true, decide_eq_true_iff]
  omega

theorem seq_eq_of_le (h : r.le r' = true) (h' : r'.le r = true) : r.seq = r'.seq := by
  simp only [Row.le, Bool.or_eq_true, Bool.and_eq_true, decide_eq_true_iff] at *
  omega

theorem pairwise_ordered (rows : List Row) : (ordered rows).Pairwise (Row.le · · = true) :=
  @List.pairwise_mergeSort Row Row.le (fun _ _ _ => le_trans) le_total rows

theorem perm_ordered (rows : List Row) : (ordered rows).Perm rows :=
  List.mergeSort_perm rows Row.le

theorem ordered_of_pairwise (h : rows.Pairwise (Row.le · · = true)) : ordered rows = rows :=
  List.mergeSort_of_pairwise h

-- The ids of a queue, most urgent first.
def orderedIds (q : Queue) : List String :=
  (ordered q.rows).map (·.gmailId)

theorem mem_orderedIds : id ∈ orderedIds q ↔ ∃ r ∈ q.rows, r.gmailId = id := by
  rw [orderedIds, List.mem_map]
  simp only [(perm_ordered q.rows).mem_iff]

theorem urgentOne_spec (messages : Messages) (h : Sound q) (queued : Nat) (id : String) :
    ∃ q' n, urgentOne messages (q, queued) id = some (q', n) ∧ Sound q' ∧
      orderedIds q' = if messages id = some .full then orderedIds q else id :: (orderedIds q).filter (· ≠ id) := by
  simp only [urgentOne]
  split_ifs with full
  case pos => exact ⟨q, queued, rfl, h, rfl⟩
  case neg =>
    generalize rest_eq : q.delete (·.gmailId = id) = rest
    have rest_rows : rest.rows = q.rows.filter (·.gmailId ≠ id) := by
      rw [← rest_eq, Queue.delete]
      simp
    have sound := h.delete (·.gmailId = id)
    rw [rest_eq] at sound
    generalize seq_eq : (rest.rows.map (·.seq)).min?.getD 0 - 1 = seq
    have front : ∀ r ∈ rest.rows, seq < r.seq := by
      intro r mem
      have mem := List.mem_map_of_mem (f := (·.seq)) mem
      cases is : (rest.rows.map (·.seq)).min? with
      | none =>
        rw [List.min?_eq_none_iff.mp is] at mem
        cases mem
      | some m =>
        have := (List.min?_eq_some_iff.mp is).right _ mem
        rw [is] at seq_eq
        simp at seq_eq
        omega
    have id_new : ∀ r ∈ rest.rows, r.gmailId ≠ id := by
      intro r mem
      rw [rest_rows] at mem
      simpa using (List.mem_filter.mp mem).right
    obtain ⟨q', is, rows, _, sound'⟩ := sound.insert seq 0 id id_new fun r mem => (front r mem).ne'
    refine ⟨q', _, by rw [is]; rfl, sound', ?_⟩
    have perm : ((ordered q.rows).filter (·.gmailId ≠ id)).Perm rest.rows := rest_rows ▸ (perm_ordered q.rows).filter _
    have sorted : ordered q'.rows =
        { seq, priority := 0, gmailId := id } :: (ordered q.rows).filter (·.gmailId ≠ id) := by
      refine List.Perm.eq_of_pairwise ?_ (pairwise_ordered q'.rows) ?_ ?_
      · intro r r' mem mem' le le'
        refine sound'.eq_of_seq ((perm_ordered _).mem_iff.mp mem) ?_ (seq_eq_of_le le le')
        rw [rows, List.mem_append, List.mem_singleton, or_comm]
        exact (List.mem_cons.mp mem').imp_right perm.mem_iff.mp
      · refine List.pairwise_cons.mpr ⟨fun r mem => ?_, (pairwise_ordered _).filter _⟩
        have := front r (perm.mem_iff.mp mem)
        simp only [Row.le, Bool.or_eq_true, Bool.and_eq_true, decide_eq_true_iff]
        omega
      · rw [← List.singleton_append]
        exact (perm_ordered _).trans (rows ▸ List.perm_append_comm.trans (perm.symm.append_left _))
    rw [orderedIds, sorted, List.map_cons, orderedIds, List.filter_map]
    rfl

-- The first of each, in order.
def firsts : List String → List String
  | []        => []
  | id :: ids => id :: (firsts ids).filter (· ≠ id)

-- Those that `enqueueUrgent` queues.
def unfetched (messages : Messages) (ids : List String) : List String :=
  firsts (ids.filter fun id => messages id ≠ some .full)

theorem enqueueUrgent_spec (messages : Messages) (h : Sound q) (ids : List String) :
    ∃ q' n, enqueueUrgent messages ids q = some (q', n) ∧ Sound q' ∧
      orderedIds q' = unfetched messages ids ++ (orderedIds q).filter (· ∉ unfetched messages ids) := by
  induction ids
  case nil => exact ⟨q, 0, rfl, h, by simp [unfetched, firsts]⟩
  case cons id ids ih =>
    obtain ⟨q₁, n₁, is₁, sound₁, order₁⟩ := ih
    obtain ⟨q', n, is, sound, order⟩ := urgentOne_spec messages sound₁ n₁ id
    refine ⟨q', n, ?_, sound, ?_⟩
    · rw [enqueueUrgent] at is₁ ⊢
      rw [List.reverse_cons, List.foldlM_append, is₁]
      simpa using is
    · rw [order, order₁]
      split_ifs with full
      · simp [unfetched, full]
      · have first : unfetched messages (id :: ids) = id :: (unfetched messages ids).filter (· ≠ id) := by
          simp [unfetched, full, firsts]
        rw [first, List.filter_append, List.filter_filter, List.cons_append]
        refine congrArg _ (congrArg _ (List.filter_congr fun other _ => ?_))
        by_cases eq : other = id <;> simp [eq]

theorem mem_remove : r ∈ (remove ids q).rows ↔ r ∈ q.rows ∧ r.gmailId ∉ ids := by
  rw [remove]
  induction ids generalizing q
  case nil => simp
  case cons id ids ih =>
    rw [List.foldl_cons, ih, Queue.delete, List.mem_filter, List.mem_cons]
    simp only [Bool.not_eq_true', decide_eq_false_iff_not]
    tauto

theorem mem_removeHeadersOnly : r ∈ (removeHeadersOnly ids q).1.rows ↔
    r ∈ q.rows ∧ ¬(r.gmailId ∈ ids ∧ r.priority ≥ HEADERS_ONLY) := by
  rw [removeHeadersOnly]
  generalize 0 = dropped
  induction ids generalizing q dropped
  case nil => simp
  case cons id ids ih =>
    rw [List.foldl_cons, ih, Queue.delete, List.mem_filter, List.mem_cons]
    simp only [Bool.not_eq_true', Bool.and_eq_false_iff, decide_eq_false_iff_not]
    tauto

theorem Sound.remove (h : Sound q) (ids : List String) : Sound (remove ids q) :=
  List.foldl_preserves (fun _ _ sound => sound.delete _) h

theorem Sound.removeHeadersOnly (h : Sound q) (ids : List String) : Sound (removeHeadersOnly ids q).1 :=
  List.foldl_preserves (P := fun s : Queue × Nat => Sound s.1) (fun _ _ sound => sound.delete _) h

theorem Sound.promoteHeadersOnly (h : Sound q) : Sound (promoteHeadersOnly q).1 :=
  h.update (·.priority ≥ HEADERS_ONLY) (· - HEADERS_ONLY)

-- Every operation succeeds, and keeps the queue in order.
theorem step_spec (h : Sound q) (a : Messages × Operation) : ∃ q', step q a = some q' ∧ Sound q' := by
  obtain ⟨messages, op⟩ := a
  cases op
  case enqueue priority ids refetch =>
    obtain ⟨q', n, is, sound, _⟩ := enqueue_spec messages h priority ids refetch
    exact ⟨q', by rw [step, is]; rfl, sound⟩
  case enqueueUrgent ids =>
    obtain ⟨q', n, is, sound, _⟩ := enqueueUrgent_spec messages h ids
    exact ⟨q', by rw [step, is]; rfl, sound⟩
  case peek                  => exact ⟨q, rfl, h⟩
  case forHeaders            => exact ⟨q, rfl, h⟩
  case removeHeadersOnly ids => exact ⟨_, rfl, h.removeHeadersOnly ids⟩
  case promoteHeadersOnly    => exact ⟨_, rfl, h.promoteHeadersOnly⟩
  case remove ids            => exact ⟨_, rfl, h.remove ids⟩

theorem reachable_sound (h : system.Reachable (fun _ _ => True) q) : Sound q := by
  refine h.invariant (fun _ start => start ▸ .empty) fun q a q' sound _ is => ?_
  obtain ⟨_, is', sound'⟩ := step_spec sound a
  cases is.symm.trans is'
  exact sound'

-- What comes before an id that was queued already: it is more urgent, or was before it.
def Keeps (q q' : Queue) : Prop :=
  ∀ r ∈ q.rows, ∃ r' ∈ q'.rows, r'.gmailId = r.gmailId ∧ r'.priority ≤ r.priority ∧
    ∀ ahead ∈ q'.rows, ahead.le r' = true → ahead = r' ∨ ahead.priority < r'.priority ∨
      ∃ old ∈ q.rows, old.gmailId = ahead.gmailId ∧ old.seq < r.seq

theorem Raised.keeps (h : Raised q q') (sound : Sound q) (sound' : Sound q') : Keeps q q' := by
  intro r mem
  obtain ⟨r', mem', id, seq, le⟩ := h.kept r mem
  refine ⟨r', mem', id, le, fun ahead memAhead before => ?_⟩
  simp only [Row.le, Bool.or_eq_true, Bool.and_eq_true, decide_eq_true_iff] at before
  rcases before with lt | ⟨_, before⟩
  · exact .inr (.inl lt)
  · rcases h.new ahead memAhead with ⟨old, memOld, id', seq'⟩ | new
    · rcases before.eq_or_lt with eq | lt
      · exact .inl (sound'.eq_of_seq memAhead mem' eq)
      · exact .inr (.inr ⟨old, memOld, id', by omega⟩)
    · have := sound.given r mem
      omega

-- The operations that take an id out of the queue.
def Operation.Removes (id : String) : Operation → Prop
  | .remove ids            => id ∈ ids
  | .removeHeadersOnly ids => id ∈ ids
  | _                      => False

theorem removes_of_left (h : Sound q) (is : step q (messages, op) = some q') (mem : id ∈ orderedIds q)
    (left : id ∉ orderedIds q') : op.Removes id := by
  cases op
  case enqueue priority ids refetch =>
    obtain ⟨q₁, n, is₁, _, raised⟩ := enqueue_spec messages h priority ids refetch
    rw [step, is₁] at is
    cases is
    obtain ⟨r, queued, rfl⟩ := mem_orderedIds.mp mem
    obtain ⟨r', mem', id, _⟩ := raised.kept r queued
    exact left (mem_orderedIds.mpr ⟨r', mem', id⟩)
  case enqueueUrgent ids =>
    obtain ⟨q₁, n, is₁, _, order⟩ := enqueueUrgent_spec messages h ids
    rw [step, is₁] at is
    cases is
    refine left (order ▸ List.mem_append.mpr ?_)
    by_cases urgent : id ∈ unfetched messages ids
    · exact .inl urgent
    · exact .inr (List.mem_filter.mpr ⟨mem, decide_eq_true urgent⟩)
  case peek       => cases is; exact left mem
  case forHeaders => cases is; exact left mem
  case removeHeadersOnly ids =>
    cases is
    obtain ⟨r, queued, rfl⟩ := mem_orderedIds.mp mem
    by_contra other
    exact left (mem_orderedIds.mpr ⟨r, mem_removeHeadersOnly.mpr ⟨queued, fun named => other named.left⟩, rfl⟩)
  case promoteHeadersOnly =>
    cases is
    obtain ⟨r, queued, rfl⟩ := mem_orderedIds.mp mem
    refine left (mem_orderedIds.mpr ⟨_, List.mem_map_of_mem queued, ?_⟩)
    split <;> rfl
  case remove ids =>
    cases is
    obtain ⟨r, queued, rfl⟩ := mem_orderedIds.mp mem
    by_contra other
    exact left (mem_orderedIds.mpr ⟨r, mem_remove.mpr ⟨queued, other⟩, rfl⟩)

-- In every run, an id is queued once; enqueueing puts nothing before what is queued but what is more urgent; urgent ids
-- that are not stored in full come first, in the caller's order; and what left the queue was named by its removal.
theorem reachable_queue (h : system.Reachable (fun _ _ => True) q) :
    (q.rows.map (·.gmailId)).Nodup ∧
    (∀ a, ∃ q', step q a = some q') ∧
    (∀ messages priority ids refetch q' n, enqueue messages priority ids refetch q = some (q', n) → Keeps q q') ∧
    (∀ messages ids q' n, enqueueUrgent messages ids q = some (q', n) →
      orderedIds q' = unfetched messages ids ++ (orderedIds q).filter (· ∉ unfetched messages ids)) ∧
    ∀ messages op q', step q (messages, op) = some q' →
      ∀ id ∈ orderedIds q, id ∉ orderedIds q' → op.Removes id := by
  have sound := reachable_sound h
  refine ⟨sound.ids, fun a => ?_, ?_, ?_, fun _ _ _ is _ => removes_of_left sound is⟩
  · obtain ⟨q', is, _⟩ := step_spec sound a
    exact ⟨q', is⟩
  · intro messages priority ids refetch q' n is
    obtain ⟨_, _, is', sound', raised⟩ := enqueue_spec messages sound priority ids refetch
    cases is.symm.trans is'
    exact raised.keeps sound sound'
  · intro messages ids q' n is
    obtain ⟨_, _, is', _, order⟩ := enqueueUrgent_spec messages sound ids
    cases is.symm.trans is'
    exact order

-- Two ids wait; the second comes first by an urgent call.
theorem reachable_queue_urgent :
    let q : Queue := { rows := [⟨1, 3, "a"⟩, ⟨2, 3, "b"⟩], sequence := 2 }
    ∃ q' n, enqueueUrgent (fun _ => none) ["b"] q = some (q', n) ∧ orderedIds q' = ["b", "a"] := by
  have reachable : system.Reachable (fun _ _ => True) { rows := [⟨1, 3, "a"⟩, ⟨2, 3, "b"⟩], sequence := 2 } :=
    .step (a := (fun _ => none, .enqueue 3 ["a", "b"] false)) (.start rfl) trivial (by decide)
  have urgent : enqueueUrgent (fun _ => none) ["b"] { rows := [⟨1, 3, "a"⟩, ⟨2, 3, "b"⟩], sequence := 2 } =
      some ({ rows := [⟨1, 3, "a"⟩, ⟨0, 0, "b"⟩], sequence := 2 }, 1) := by decide
  have ⟨_, _, _, order, _⟩ := reachable_queue reachable
  refine ⟨_, _, urgent, (order _ _ _ _ urgent).trans ?_⟩
  rw [orderedIds, ordered_of_pairwise (by decide)]
  decide

-- A message that is stored in full is fetched again; an urgent call leaves it where it is.
theorem urgent_full :
    let messages : Messages := fun id => if id = "b" then some .full else none
    let q : Queue := { rows := [⟨1, 3, "a"⟩, ⟨2, 3, "b"⟩], sequence := 2 }
    enqueue messages 3 ["a", "b"] true {} = some (q, 2) ∧ enqueueUrgent messages ["b"] q = some (q, 0) ∧
      orderedIds q = ["a", "b"] := by
  refine ⟨by decide, by decide, ?_⟩
  rw [orderedIds, ordered_of_pairwise (by decide)]
  rfl

end Runs

end Kaluta.Backfill
