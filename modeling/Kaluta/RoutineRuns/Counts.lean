import Kaluta.RoutineRuns.Runs

-- What the writes of runs do to their counts.
namespace Kaluta.RoutineRuns

section Tables

variable {α : Type} {κ : Type} [DecidableEq κ] {key : α → κ} {t : Table α key} {a : α} {q : α → Bool}

-- A row that is written changes no count that it is not in.
theorem count_upsert_other {f : α → α} {hf : ∀ b, key (f b) = key b} (other : ∀ b, key b = key a → q b = false) :
    (t.upsert a f hf).count q = t.count q := by
  simp only [Table.count, List.countP_eq_length_filter]
  rw [Table.upsert]
  split
  case isTrue  => rw [Table.filter_insert (other a rfl)]
  case isFalse =>
    rw [Table.filter_update fun b _ hb => ?_]
    exact ⟨other b (of_decide_eq_true hb), other (f b) ((hf b).trans (of_decide_eq_true hb))⟩

theorem count_insertOrIgnore_other (other : q a = false) : (t.insertOrIgnore a).count q = t.count q := by
  simp only [Table.count, List.countP_eq_length_filter]
  rw [Table.insertOrIgnore]
  split
  case isTrue  => rw [Table.filter_insert other]
  case isFalse => rfl

end Tables

namespace Store

variable {db : Store} {run : Nat} {bucket : String}

-- Each run's counts are the numbers of its threads, and each thread's run is there.
structure Right (db : Store) : Prop where
  counts : ∀ r ∈ db.runs, ∀ bucket, r.count bucket = db.sorted r.id bucket
  owned  : ∀ t ∈ db.threads, db.hasRun t.run = true

theorem hasRun_iff : db.hasRun run = true ↔ ∃ r ∈ db.runs, r.id = run := by
  simp [hasRun, Table.mem_rows]

theorem sorted_eq_zero (h : ∀ t ∈ db.threads, t.run ≠ run) : db.sorted run bucket = 0 :=
  Table.count_eq_zero.mpr fun t ht => by simp [h t ht]

section Update

variable {f : Run → Run} {hf : ∀ r, (f r).id = r.id}

theorem mem_updateRun {r : Run} : r ∈ (db.updateRun run f hf).runs ↔
    (r ∈ db.runs ∧ r.id ≠ run) ∨ ∃ r' ∈ db.runs, r'.id = run ∧ f r' = r := by
  simp [updateRun, Table.mem_update]

theorem hasRun_updateRun {other : Nat} : (db.updateRun run f hf).hasRun other = db.hasRun other := by
  rw [Bool.eq_iff_iff, hasRun_iff, hasRun_iff]
  simp only [mem_updateRun]
  constructor
  · rintro ⟨r, ⟨hr, _⟩ | ⟨r', hr, _, rfl⟩, rfl⟩
    · exact ⟨r, hr, rfl⟩
    · exact ⟨r', hr, (hf r').symm⟩
  · rintro ⟨r, hr, rfl⟩
    by_cases eq : r.id = run
    · exact ⟨f r, .inr ⟨r, hr, eq, rfl⟩, hf r⟩
    · exact ⟨r, .inl ⟨hr, eq⟩, rfl⟩

-- What rights the one run it changes leaves the accounts right.
theorem right_updateRun (others : ∀ r ∈ db.runs, r.id ≠ run → ∀ bucket, r.count bucket = db.sorted r.id bucket)
    (own : ∀ r ∈ db.runs, r.id = run → ∀ bucket, (f r).count bucket = db.sorted run bucket)
    (owned : ∀ t ∈ db.threads, db.hasRun t.run = true) : (db.updateRun run f hf).Right where
  counts := by
    intro r hr bucket
    rcases mem_updateRun.mp hr with ⟨hr, ne⟩ | ⟨r', hr', eq, rfl⟩
    · exact others r hr ne bucket
    · exact (own r' hr' eq bucket).trans (congrArg (db.sorted · bucket) ((hf r').trans eq).symm)
  owned  := fun t ht => hasRun_updateRun.trans (owned t ht)

theorem Right.updateRun (h : db.Right) (same : ∀ r, (f r).counts = r.counts) : (db.updateRun run f hf).Right :=
  right_updateRun (fun r hr _ => h.counts r hr)
    (fun r hr eq bucket => eq ▸ (by rw [Run.count, same]; rfl : (f r).count bucket = r.count bucket).trans (h.counts r hr bucket))
    h.owned

end Update

theorem mem_insertRun {mk : Nat → Run} {hmk : ∀ n, (mk n).id = n} {r : Run} :
    r ∈ (db.insertRun mk hmk).1.runs ↔ r ∈ db.runs ∨ r = mk db.runs.nextRowid := by
  simp [insertRun]

theorem Right.insertRun {mk : Nat → Run} {hmk : ∀ n, (mk n).id = n} (h : db.Right) (empty : ∀ n, (mk n).counts = []) :
    (db.insertRun mk hmk).1.Right where
  counts := by
    intro r hr bucket
    rcases mem_insertRun.mp hr with hr | rfl
    · exact h.counts r hr bucket
    · have zero : Run.count (mk db.runs.nextRowid) bucket = 0 := by simp [Run.count, empty]
      rw [zero, hmk]
      refine (sorted_eq_zero fun t ht eq => ?_).symm
      obtain ⟨r, hr, id⟩ := hasRun_iff.mp (h.owned t ht)
      exact (Table.lt_nextRowid hr).ne (id.trans eq)
  owned  := by
    intro t ht
    obtain ⟨r, hr, id⟩ := hasRun_iff.mp (h.owned t ht)
    exact hasRun_iff.mpr ⟨r, mem_insertRun.mpr (.inl hr), id⟩

theorem find?_counts {buckets : List String} {g : String → Nat} :
    (((buckets.map fun b => (b, g b)).find? (·.1 = bucket)).map (·.2)).getD 0 =
      if bucket ∈ buckets then g bucket else 0 := by
  induction buckets with
  | nil            => simp
  | cons b bs ih =>
    rw [List.map_cons]
    by_cases eq : b = bucket
    · rw [List.find?_cons_of_pos (by simpa using eq)]
      simp [eq]
    · rw [List.find?_cons_of_neg (by simpa using eq), ih]
      simp [Ne.symm eq]

-- A run that is recounted is right, whatever its counts were.
theorem right_recount {now : Option Millis} (others : ∀ r ∈ db.runs, r.id ≠ run → ∀ b, r.count b = db.sorted r.id b)
    (owned : ∀ t ∈ db.threads, db.hasRun t.run = true) : (db.recount run now).Right := by
  refine right_updateRun others (fun r _ _ bucket => ?_) owned
  refine find?_counts.trans ?_
  split
  case isTrue  => rfl
  case isFalse none_ =>
    refine (Table.count_eq_zero.mpr fun t ht => ?_).symm
    rw [List.mem_insertionSort, List.mem_dedup, List.mem_filterMap] at none_
    by_contra some_
    have : t.run = run ∧ t.bucket = some bucket := by simpa using some_
    exact none_ ⟨t, ht, by simp [this.1, this.2]⟩

section Threads

variable {threads : List (String × Option String)} {rows rows' : Table RunThread RunThread.key} {t : RunThread}

-- What of a run is written into the rows, thread by thread.
def put (run : Nat) (rows : Table RunThread RunThread.key) (p : String × Option String) : Table RunThread RunThread.key :=
  rows.upsert ⟨run, p.1, p.2⟩ (fun t => { t with bucket := p.2 }) fun _ => rfl

theorem mem_put {p : String × Option String} (h : t ∈ put run rows p) : t ∈ rows ∨ t.run = run := by
  unfold put Table.upsert at h
  split at h
  · exact (Table.mem_insert.mp h).imp_right fun e => congrArg RunThread.run e
  · rcases Table.mem_update.mp h with ⟨h, _⟩ | ⟨t', _, key, rfl⟩
    · exact .inl h
    · exact .inr (congrArg Prod.fst (of_decide_eq_true key))

theorem foldl_put (h : t ∈ threads.foldl (put run) rows) : t ∈ rows ∨ t.run = run := by
  induction threads generalizing rows with
  | nil            => exact .inl h
  | cons p ps ih   =>
    rcases ih h with h | h
    · exact mem_put h
    · exact .inr h

theorem count_foldl_put_other {q : RunThread → Bool} (other : ∀ t : RunThread, t.run = run → q t = false) :
    (threads.foldl (put run) rows).count q = rows.count q := by
  induction threads generalizing rows with
  | nil          => rfl
  | cons p ps ih =>
    exact ih.trans (count_upsert_other fun b hb => other b (congrArg Prod.fst hb))

-- New threads of a run are counted one by one.
theorem count_foldl_put_own (nodup : (threads.map Prod.fst).Nodup)
    (fresh : ∀ t ∈ rows, t.run = run → t.thread ∉ threads.map Prod.fst) :
    (threads.foldl (put run) rows).count (fun t => t.run = run ∧ t.bucket = some bucket) =
      rows.count (fun t => t.run = run ∧ t.bucket = some bucket) + threads.countP (·.2 = some bucket) := by
  induction threads generalizing rows with
  | nil          => rfl
  | cons p ps ih =>
    have new : ∀ t ∈ rows.rows, RunThread.key t ≠ RunThread.key ⟨run, p.1, p.2⟩ := by
      intro t ht key
      obtain ⟨hrun, hthread⟩ := Prod.mk.injEq .. ▸ key
      exact fresh t ht hrun (hthread ▸ .head _)
    have eq : put run rows p = rows.insert ⟨run, p.1, p.2⟩ new := by
      unfold put Table.upsert
      exact dif_pos new
    rw [List.map_cons, List.nodup_cons] at nodup
    rw [List.foldl_cons, eq, ih nodup.2, Table.count_insert, List.countP_cons]
    · simp only [true_and, decide_eq_true_eq]
      omega
    · intro t ht hrun mem
      rcases Table.mem_insert.mp ht with ht | rfl
      · exact fresh t ht hrun (.tail _ mem)
      · exact nodup.1 mem

theorem addRunThreads_eq_some {db' : Store} (h : db.addRunThreads run threads = some db') :
    (threads ≠ [] → db.hasRun run = true) ∧ db' = { db with threads := threads.foldl (put run) db.threads } := by
  rw [addRunThreads] at h
  split at h
  case isTrue  => cases h
  case isFalse ok =>
    cases h
    exact ⟨fun ne => by simpa [ne] using ok, rfl⟩

theorem addRunThreads_sorted {db' : Store} (h : db.addRunThreads run threads = some db') {other : Nat} (ne : other ≠ run) :
    db'.sorted other bucket = db.sorted other bucket := by
  obtain ⟨_, rfl⟩ := addRunThreads_eq_some h
  exact count_foldl_put_other fun t ht => by simp [ht, ne.symm]

theorem addRunThreads_owned {db' : Store} (h : db.addRunThreads run threads = some db')
    (owned : ∀ t ∈ db.threads, db.hasRun t.run = true) : ∀ t ∈ db'.threads, db'.hasRun t.run = true := by
  obtain ⟨there, rfl⟩ := addRunThreads_eq_some h
  intro t ht
  cases threads with
  | nil          => exact owned t ht
  | cons p ps =>
    rcases foldl_put ht with ht | eq
    · exact owned t ht
    · exact eq ▸ there (List.cons_ne_nil _ _)

-- Recounting after adding threads.
theorem Right.addRunThreads {db' : Store} {now : Option Millis} (h : db.Right)
    (added : db.addRunThreads run threads = some db') : (db'.recount run now).Right := by
  refine right_recount (fun r hr ne b => ?_) (addRunThreads_owned added h.owned)
  obtain ⟨_, rfl⟩ := addRunThreads_eq_some added
  exact (h.counts r hr b).trans (addRunThreads_sorted added ne).symm

-- Counting the threads that are added to a run without any.
theorem Right.finishRun {db' : Store} {status : String} {counts : List (String × Nat)} {report : Option String}
    {now : Millis} (h : db.Right) (added : db.addRunThreads run threads = some db')
    (nodup : (threads.map Prod.fst).Nodup) (none_ : ∀ t ∈ db.threads, t.run ≠ run)
    (right : ∀ b, ((counts.find? (·.1 = b)).map (·.2)).getD 0 = threads.countP (·.2 = some b)) :
    (db'.finishRun run status counts report now).Right := by
  refine right_updateRun (fun r hr ne b => ?_) (fun r _ _ b => ?_) (addRunThreads_owned added h.owned)
  · obtain ⟨_, rfl⟩ := addRunThreads_eq_some added
    exact (h.counts r hr b).trans (addRunThreads_sorted added ne).symm
  · obtain ⟨_, rfl⟩ := addRunThreads_eq_some added
    have zero : db.sorted run b = 0 := sorted_eq_zero none_
    refine (right b).trans ?_
    simp only [sorted] at zero ⊢
    rw [count_foldl_put_own nodup fun t ht eq => absurd eq (none_ t ht), zero, Nat.zero_add]

end Threads

section Merge

variable {old into : Nat} {moved : List RunThread} {rows : Table RunThread RunThread.key} {t : RunThread} {db' : Store}

def move (into : Nat) (rows : Table RunThread RunThread.key) (t : RunThread) : Table RunThread RunThread.key :=
  rows.insertOrIgnore { t with run := into }

theorem foldl_move (h : t ∈ moved.foldl (move into) rows) : t ∈ rows ∨ t.run = into := by
  induction moved generalizing rows with
  | nil          => exact .inl h
  | cons m ms ih =>
    rcases ih h with h | h
    · exact (Table.mem_of_mem_insertOrIgnore h).imp_right fun e => congrArg RunThread.run e
    · exact .inr h

theorem mem_foldl_move (h : t ∈ rows) : t ∈ moved.foldl (move into) rows := by
  induction moved generalizing rows with
  | nil          => exact h
  | cons m ms ih => exact ih (Table.mem_insertOrIgnore.mpr (.inl h))

-- A thread that is moved is in the run then, if only in a bucket that it had there before.
theorem moved_mem_foldl (into : Nat) (rows : Table RunThread RunThread.key) (h : t ∈ moved) : ∃ t' ∈ moved.foldl (move into) rows, t'.run = into ∧ t'.thread = t.thread := by
  induction moved generalizing rows with
  | nil          => cases h
  | cons m ms ih =>
    rw [List.foldl_cons]
    rcases List.mem_cons.mp h with rfl | h
    · by_cases there : ∀ c ∈ rows, RunThread.key c ≠ RunThread.key { t with run := into }
      · have new : { t with run := into } ∈ move into rows t := Table.mem_insertOrIgnore.mpr (.inr ⟨rfl, there⟩)
        exact ⟨_, mem_foldl_move new, rfl, rfl⟩
      · push Not at there
        obtain ⟨c, hc, key⟩ := there
        exact ⟨c, mem_foldl_move (Table.mem_insertOrIgnore.mpr (.inl hc) : c ∈ move into rows t), congrArg Prod.fst key, congrArg Prod.snd key⟩
    · exact ih _ h

theorem count_foldl_move_other {q : RunThread → Bool} (other : ∀ t : RunThread, t.run = into → q t = false) :
    (moved.foldl (move into) rows).count q = rows.count q := by
  induction moved generalizing rows with
  | nil          => rfl
  | cons m ms ih => exact ih.trans (count_insertOrIgnore_other (other _ rfl))

theorem mergeRuns_eq_some (h : db.mergeRuns old into = some db') :
    ((∃ t ∈ db.threads, t.run = old) → db.hasRun into = true) ∧
    db' = Store.recount {
      runs    := db.runs.delete (·.id = old)
      threads := ((db.threads.rows.filter (·.run = old)).foldl (move into) db.threads).delete (·.run = old)
    } into none := by
  rw [mergeRuns] at h
  dsimp only at h
  split at h
  case isTrue  => cases h
  case isFalse ok =>
    refine ⟨?_, (Option.some.inj h).symm⟩
    rintro ⟨t, ht, eq⟩
    by_contra none_
    exact ok ⟨List.ne_nil_of_mem (List.mem_filter.mpr ⟨ht, by simpa using eq⟩), none_⟩

theorem Right.mergeRuns (h : db.Right) (ne : old ≠ into) (merged : db.mergeRuns old into = some db') : db'.Right := by
  obtain ⟨there, rfl⟩ := mergeRuns_eq_some merged
  refine right_recount (fun r hr other b => ?_) fun t ht => ?_
  · obtain ⟨hr, live⟩ := Table.mem_delete.mp hr
    have live : r.id ≠ old := by simpa using live
    refine (h.counts r hr b).trans ?_
    have kept : ∀ rows : Table RunThread RunThread.key,
        (rows.delete (·.run = old)).count (fun t => t.run = r.id ∧ t.bucket = some b) =
          rows.count fun t => t.run = r.id ∧ t.bucket = some b := fun rows => by
      simp only [Table.count, List.countP_eq_length_filter]
      rw [Table.filter_delete fun t _ ht => ?_]
      have : t.run = old := of_decide_eq_true ht
      simp [this, live.symm]
    exact ((kept _).trans (count_foldl_move_other fun t ht => by simp [ht, other.symm])).symm
  · obtain ⟨ht, live⟩ := Table.mem_delete.mp ht
    have live : t.run ≠ old := by simpa using live
    have kept : ∀ run, run ≠ old → db.hasRun run = true →
        Store.hasRun { db with runs := db.runs.delete (·.id = old) } run = true := by
      intro run ne has
      obtain ⟨r, hr, rfl⟩ := hasRun_iff.mp has
      exact hasRun_iff.mpr ⟨r, Table.mem_delete.mpr ⟨hr, by simpa using ne⟩, rfl⟩
    by_cases some_ : ∃ t ∈ db.threads, t.run = old
    case pos =>
      rcases foldl_move ht with ht | eq
      · exact kept _ live (h.owned t ht)
      · exact eq ▸ kept into ne.symm (there some_)
    case neg =>
      have empty : db.threads.rows.filter (·.run = old) = [] := by
        refine List.filter_eq_nil_iff.mpr fun t ht eq => some_ ⟨t, ht, by simpa using eq⟩
      rw [empty] at ht
      exact kept _ live (h.owned t ht)

-- Merging a run into another: no thread of either is lost, and those of the other stay in their buckets.
theorem mergeRuns_keeps (ne : old ≠ into) (merged : db.mergeRuns old into = some db') :
    (∀ t ∈ db.threads, t.run = old → ∃ t' ∈ db'.threads, t'.run = into ∧ t'.thread = t.thread) ∧
    ∀ t ∈ db.threads, t.run = into → t ∈ db'.threads := by
  obtain ⟨_, rfl⟩ := mergeRuns_eq_some merged
  have stays : ∀ t : RunThread, t.run = into → (decide (t.run = old)) = false := fun t eq => by simp [eq, ne.symm]
  constructor
  · intro t ht eq
    obtain ⟨t', ht', run, thread⟩ := moved_mem_foldl into db.threads
      (List.mem_filter.mpr ⟨ht, by simpa using eq⟩ : t ∈ db.threads.rows.filter (·.run = old))
    exact ⟨t', Table.mem_delete.mpr ⟨ht', stays t' run⟩, run, thread⟩
  · intro t ht eq
    exact Table.mem_delete.mpr ⟨mem_foldl_move ht, stays t eq⟩

end Merge

end Store

section Turns

variable {routine : Option Routine} {s : Sorted} {thread : String} {bucket : Option String}
  {rest : List (String × Option String)}

def countOf (counts : List (String × Nat)) (bucket : String) : Nat :=
  ((counts.find? (·.1 = bucket)).map (·.2)).getD 0

theorem countOf_bump {b b' : String} {counts : List (String × Nat)} :
    countOf (bump b' counts) b = countOf counts b + if b' = b then 1 else 0 := by
  induction counts with
  | nil            => by_cases eq : b' = b <;> simp [countOf, bump, eq]
  | cons c cs ih   =>
    obtain ⟨c, n⟩ := c
    unfold bump
    by_cases own : c = b'
    · by_cases eq : c = b
      · subst own; subst eq; simp [countOf]
      · subst own; simp [countOf, eq]
    · rw [if_neg own]
      by_cases eq : c = b
      · subst eq; simp [countOf, Ne.symm own]
      · have skip : ∀ cs : List (String × Nat), countOf ((c, n) :: cs) b = countOf cs b := fun cs => by
          simp [countOf, eq]
        rw [skip, skip, ih]

-- The labels that a turn put on threads, in order, each with the bucket it stands for.
def labelled (routine : Option Routine) (actions : List AgentAction) : List (String × Option String) :=
  actions.flatMap fun
    | .addLabel label threads => threads.map (·, bucketFor routine label)
    | _                       => []

-- A thread that is put into a bucket is not labelled again.
def LabelledOnce (labels : List (String × Option String)) : Prop :=
  labels.Pairwise fun p q => p.2.isSome = true → q.1 ≠ p.1

instance : DecidablePred LabelledOnce :=
  fun _ => inferInstanceAs (Decidable (List.Pairwise _ _))

-- The counts so far are those of the threads so far, and a thread in a bucket is not among the labels to come.
structure Sorted.Right (s : Sorted) (rest : List (String × Option String)) : Prop where
  counts : ∀ b, countOf s.counts b = s.threads.countP (·.2 = some b)
  nodup  : (s.threads.map Prod.fst).Nodup
  once   : ∀ p ∈ s.threads, p.2.isSome = true → ∀ q ∈ rest, q.1 ≠ p.1

theorem Sorted.Right.label (h : s.Right ((thread, bucket) :: rest))
    (once : bucket.isSome = true → ∀ q ∈ rest, q.1 ≠ thread) : (s.label bucket thread).Right rest where
  counts := by
    intro b
    have kept : (s.threads.filter (·.1 ≠ thread)).countP (·.2 = some b) = s.threads.countP (·.2 = some b) := by
      rw [List.countP_filter]
      refine List.countP_congr fun p hp => ?_
      have other : p.2 = some b → p.1 ≠ thread := fun e => (h.once p hp (by simp [e]) _ (.head _)).symm
      simpa using other
    simp only [Sorted.label, List.countP_append, kept, ← h.counts b]
    cases bucket with
    | none    => simp
    | some b' => simp [countOf_bump, List.countP_cons]
  nodup  := by
    simp only [Sorted.label, List.map_append, List.map_cons, List.map_nil]
    refine List.nodup_append.mpr ⟨(List.filter_sublist.map _).nodup h.nodup, List.nodup_singleton _, ?_⟩
    rintro _ mem _ mem' rfl
    obtain ⟨p, hp, rfl⟩ := List.mem_map.mp mem
    exact absurd (List.mem_singleton.mp mem') (by simpa using (List.mem_filter.mp hp).2)
  once   := by
    intro p hp some_ q hq
    rcases List.mem_append.mp hp with hp | hp
    · exact h.once p (List.mem_filter.mp hp).1 some_ q (.tail _ hq)
    · cases List.mem_singleton.mp hp
      exact once some_ q hq

theorem Sorted.Right.archive (h : s.Right rest) : (s.archive thread).Right rest := by
  unfold Sorted.archive
  split
  case isTrue  => exact h
  case isFalse new =>
    refine ⟨fun b => ?_, ?_, fun p hp some_ => ?_⟩
    · simp [h.counts b]
    · simp only [List.map_append, List.map_cons, List.map_nil]
      refine List.nodup_append.mpr ⟨h.nodup, List.nodup_singleton _, ?_⟩
      rintro _ mem _ mem' rfl
      obtain ⟨p, hp, rfl⟩ := List.mem_map.mp mem
      exact new (List.any_eq_true.mpr ⟨p, hp, by simpa using mem'⟩)
    · rcases List.mem_append.mp hp with hp | hp
      · exact h.once p hp some_
      · cases List.mem_singleton.mp hp
        cases some_

theorem Sorted.Right.labels {threads : List String} (once : LabelledOnce (threads.map (·, bucket) ++ rest)) :
    ∀ {s : Sorted}, s.Right (threads.map (·, bucket) ++ rest) → (threads.foldl (Sorted.label bucket) s).Right rest := by
  induction threads with
  | nil                  => exact fun h => h
  | cons t threads ih =>
    intro s h
    obtain ⟨head, tail⟩ := List.pairwise_cons.mp once
    exact ih tail (h.label fun some_ q hq => head q hq some_)

theorem Sorted.Right.archives {threads : List String} :
    ∀ {s : Sorted}, s.Right rest → (threads.foldl Sorted.archive s).Right rest := by
  induction threads with
  | nil             => exact fun h => h
  | cons t threads ih => exact fun h => ih h.archive

theorem Sorted.Right.acts {actions : List AgentAction} (once : LabelledOnce (labelled routine actions)) :
    ∀ {s : Sorted}, s.Right (labelled routine actions) → (actions.foldl (Sorted.act routine) s).Right [] := by
  induction actions with
  | nil                => exact fun h => h
  | cons a actions ih  =>
    intro s h
    cases a with
    | addLabel label threads => exact ih (List.pairwise_append.mp once).2.1 (h.labels once)
    | archive threads        => exact ih once (Sorted.Right.archives h)
    | other                  => exact ih once h

-- What is counted of a turn is what is recorded of it.
theorem sortedBy_right {actions : List AgentAction} (once : LabelledOnce (labelled routine actions)) :
    (sortedBy routine actions).Right [] :=
  Sorted.Right.acts once ⟨fun _ => rfl, List.nodup_nil, nofun⟩

end Turns

namespace Store

variable {db db' db'' : Store} {run : Nat}

-- A cloud run of a store is still there, and an inferred one has no session if none had one before.
structure Extends (db db' : Store) : Prop where
  cloud    : ∀ r ∈ db.runs, r.inferred = false → ∃ r' ∈ db'.runs, r'.id = r.id ∧ r'.inferred = false
  inferred : ∀ r' ∈ db'.runs, r'.inferred = true → r'.session = none ∨
    ∃ r ∈ db.runs, r.inferred = true ∧ r.session = r'.session

theorem Extends.refl : db.Extends db where
  cloud    := fun r hr cloud => ⟨r, hr, rfl, cloud⟩
  inferred := fun r hr inferred => .inr ⟨r, hr, inferred, rfl⟩

theorem Extends.of_runs (h : db.Extends db') (runs : db''.runs = db'.runs) : db.Extends db'' where
  cloud    := runs ▸ h.cloud
  inferred := runs ▸ h.inferred

theorem Extends.trans (h : db.Extends db') (h' : db'.Extends db'') : db.Extends db'' where
  cloud    := by
    intro r hr cloud
    obtain ⟨r', hr', id, cloud⟩ := h.cloud r hr cloud
    obtain ⟨r'', hr'', id', cloud⟩ := h'.cloud r' hr' cloud
    exact ⟨r'', hr'', id'.trans id, cloud⟩
  inferred := by
    intro r hr inferred
    rcases h'.inferred r hr inferred with none_ | ⟨r', hr', inferred', e⟩
    · exact .inl none_
    · rw [← e]
      exact h.inferred r' hr' inferred'

theorem extends_updateRun {f : Run → Run} {hf : ∀ r, (f r).id = r.id}
    (kept : ∀ r, (f r).inferred = r.inferred ∧ (f r).session = r.session) : db.Extends (db.updateRun run f hf) where
  cloud    := by
    intro r hr cloud
    by_cases eq : r.id = run
    · exact ⟨f r, mem_updateRun.mpr (.inr ⟨r, hr, eq, rfl⟩), hf r, (kept r).1.trans cloud⟩
    · exact ⟨r, mem_updateRun.mpr (.inl ⟨hr, eq⟩), rfl, cloud⟩
  inferred := by
    intro r hr inferred
    rcases mem_updateRun.mp hr with ⟨hr, _⟩ | ⟨r', hr', _, rfl⟩
    · exact .inr ⟨r, hr, inferred, rfl⟩
    · exact .inr ⟨r', hr', (kept r').1.symm.trans inferred, (kept r').2.symm⟩

theorem extends_insertRun {mk : Nat → Run} {hmk : ∀ n, (mk n).id = n}
    (plain : ∀ n, (mk n).inferred = true → (mk n).session = none) : db.Extends (db.insertRun mk hmk).1 where
  cloud    := fun r hr cloud => ⟨r, mem_insertRun.mpr (.inl hr), rfl, cloud⟩
  inferred := by
    intro r hr inferred
    rcases mem_insertRun.mp hr with hr | rfl
    · exact .inr ⟨r, hr, inferred, rfl⟩
    · exact .inl (plain _ inferred)

theorem extends_mergeRuns {old into : Nat} (inferred : ∀ r ∈ db.runs, r.id = old → r.inferred = true)
    (merged : db.mergeRuns old into = some db') : db.Extends db' := by
  obtain ⟨_, rfl⟩ := mergeRuns_eq_some merged
  refine Extends.trans ?_ (extends_updateRun fun _ => ⟨rfl, rfl⟩)
  constructor
  · intro r hr cloud
    refine ⟨r, Table.mem_delete.mpr ⟨hr, decide_eq_false fun eq => ?_⟩, rfl, cloud⟩
    rw [inferred r hr eq] at cloud
    cases cloud
  · exact fun r hr inferred => .inr ⟨r, (Table.mem_delete.mp hr).1, inferred, rfl⟩

theorem addRunThreads_runs {threads : List (String × Option String)} (h : db.addRunThreads run threads = some db') :
    db'.runs = db.runs := by
  obtain ⟨_, rfl⟩ := addRunThreads_eq_some h
  rfl

theorem Right.upsertCloudRun {routine session status : String} {started : Millis} {ended : Option Millis} (h : db.Right) :
    (db.upsertCloudRun routine session status started ended).1.Right := by
  unfold Store.upsertCloudRun
  split
  · exact h.updateRun fun _ => rfl
  · exact h.insertRun fun _ => rfl

theorem extends_upsertCloudRun {routine session status : String} {started : Millis} {ended : Option Millis} :
    db.Extends (db.upsertCloudRun routine session status started ended).1 := by
  unfold Store.upsertCloudRun
  split
  · exact extends_updateRun fun _ => ⟨rfl, rfl⟩
  · exact extends_insertRun nofun

-- What is refreshed is no inferred run.
theorem upsertCloudRun_cloud {routine session status : String} {started : Millis} {ended : Option Millis}
    (plain : ∀ r ∈ db.runs, r.inferred = true → r.session = none) :
    ∃ r ∈ (db.upsertCloudRun routine session status started ended).1.runs,
      r.id = (db.upsertCloudRun routine session status started ended).2 ∧ r.inferred = false := by
  unfold Store.upsertCloudRun
  split
  case h_1 r found =>
    have hr : r ∈ db.runs := List.mem_of_find?_eq_some found
    have session : r.routine = routine ∧ r.session = some session := by simpa using List.find?_some found
    refine ⟨_, mem_updateRun.mpr (.inr ⟨r, hr, rfl, rfl⟩), rfl, ?_⟩
    cases e : r.inferred with
    | false => rfl
    | true  => exact nomatch (plain r hr e).symm.trans session.2
  case h_2 => exact ⟨_, mem_insertRun.mpr (.inr rfl), rfl, rfl⟩

theorem Right.openInferredRun (routine : String) (now gap : Millis) (h : db.Right) :
    (db.openInferredRun routine now gap).1.Right := by
  unfold Store.openInferredRun
  dsimp only
  split
  · exact h
  · exact h.insertRun fun _ => rfl

-- A run that was missed has no threads.
theorem Right.missed {routine status : String} {session report : Option String} {now : Millis} (h : db.Right) :
    ((db.startRun routine false session status now).1.finishRun (db.startRun routine false session status now).2 status []
      report now).Right := by
  have started : (db.startRun routine false session status now).1.Right := h.insertRun fun _ => rfl
  have added : (db.startRun routine false session status now).1.addRunThreads
      (db.startRun routine false session status now).2 [] = some (db.startRun routine false session status now).1 := by
    simp [Store.addRunThreads]
  refine started.finishRun added List.nodup_nil (fun t ht eq => ?_) fun _ => rfl
  obtain ⟨r, hr, id⟩ := hasRun_iff.mp (h.owned t ht)
  exact (Table.lt_nextRowid hr).ne (id.trans eq)

theorem extends_openInferredRun {routine : String} {now gap : Millis} :
    db.Extends (db.openInferredRun routine now gap).1 := by
  unfold Store.openInferredRun
  dsimp only
  split
  · exact .refl
  · exact extends_insertRun fun _ _ => rfl

end Store

end Kaluta.RoutineRuns
