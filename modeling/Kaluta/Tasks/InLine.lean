import Kaluta.Tasks.Task

-- The label follows the open tasks, and a deleted task can be put back: when.
namespace Kaluta.Tasks

-- Whether what a call knows of the thread it brings in line is still so.
def Follow.fresh (label : Option String) (isOpen : Bool) : Follow → Bool
  | .reads                          => true
  | .looks read                     => read = isOpen
  | .finds | .creates | .remembers _ => isOpen
  | .writes read id                 => read = isOpen ∧ label = some id

namespace State

variable (s : State)

def stored (thread : String) : Bool :=
  s.mail.any (·.threadId = thread)

def carries (label : Option String) (thread : String) : Bool :=
  label.any fun id => s.mail.any fun m => m.threadId = thread ∧ id ∈ m.labels

def inLine (label : Option String) (thread : String) : Bool :=
  !s.stored thread || s.carries label thread = s.hasOpen thread

-- Whether a call will bring a thread in line.
def brings (label : Option String) (thread : String) (c : Call) : Bool :=
  match c.stage with
  | .marked id               => s.tasks.rows.any fun t => t.id = id ∧ t.threadId = thread
  | .deletes item            => item.threadId = thread
  | .follows thread' f later => thread ∈ later || (thread' = thread && f.fresh label (s.hasOpen thread))

def othersBring (label : Option String) (thread : String) (c : Call) : Bool :=
  s.calls.rows.any fun c' => c'.id ≠ c.id ∧ s.brings label thread c'

-- Whether a thread is in line with a label, or some call will bring it in line.
def standing (label : Option String) (thread : String) : Bool :=
  s.calls.rows.any (s.brings label thread) || s.inLine label thread

-- Once all calls have finished each stored thread on which a task was changed carries the label if it has an open task
-- and not otherwise; and each deleted task can be put back as it was.
structure Follows [Days] : Prop where
  label    : s.calls.rows = [] → ∀ thread ∈ s.touched, s.stored thread = true →
    s.carries s.label thread = s.hasOpen thread
  restores : ∀ d ∈ s.deleted, ∃ tasks, d.item.row.toOption.bind s.tasks.insert? = some tasks ∧
    tasks.find? d.row.id = some d.row

-- A call deletes the task as it read it. One that is done with a thread knows how the thread and the label are, and has
-- its label, or another call will bring the thread in line. The label that is remembered is the one that was, or else
-- every thread on which a task was changed is in line with the new one or some call will bring it in line with it.
def goesOn (c : Call) (made : Option String) : Bool :=
  match c.stage with
  | .marked _             => true
  | .deletes item         => (s.tasks.find? item.id).all (TaskItem.of · = item)
  | .follows thread f _   =>
    match f with
    | .remembers id => s.label = some id || s.touched.all (s.standing (some id))
    | f             => (s.follow thread made f).2.isSome ||
      (f ≠ .creates && f.fresh s.label (s.hasOpen thread)) || s.othersBring s.label thread c

-- No new task gets the id of a deleted one that is not put back.
def cond : Action → Bool
  | .createTasks new _ => s.deleted.all fun d =>
    d.row.id < s.tasks.nextRowid ∨ s.tasks.nextRowid + new.length ≤ d.row.id
  | .goOn call made    => (s.calls.find? call).all fun c => s.goesOn c made
  | _                  => true

end State

section Lines

variable {s t : State} {label : Option String} {thread : String} {c : Call} {stage : Stage}

namespace State

-- A thread's tasks are all that tells whether it has an open one.
theorem hasOpen_congr (same : ∀ r, r.threadId = thread → (r ∈ t.tasks ↔ r ∈ s.tasks)) :
    t.hasOpen thread = s.hasOpen thread := by
  rw [Bool.eq_iff_iff]
  simp only [hasOpen, List.any_eq_true, decide_eq_true_eq, Table.mem_rows]
  exact exists_congr fun r => by grind

theorem brings_congr (same : ∀ r, r.threadId = thread → (r ∈ t.tasks ↔ r ∈ s.tasks)) :
    t.brings label thread c = s.brings label thread c := by
  unfold brings
  split
  case h_1 =>
    rw [Bool.eq_iff_iff]
    simp only [List.any_eq_true, decide_eq_true_eq, Table.mem_rows]
    exact exists_congr fun r => by grind
  case h_2 => rfl
  case h_3 => rw [hasOpen_congr same]

theorem inLine_congr (mail : t.mail = s.mail) (same : ∀ r, r.threadId = thread → (r ∈ t.tasks ↔ r ∈ s.tasks)) :
    t.inLine label thread = s.inLine label thread := by
  unfold inLine
  rw [hasOpen_congr same, stored, stored, carries, carries, mail]

theorem standing_iff :
    s.standing label thread = true ↔ (∃ c ∈ s.calls, s.brings label thread c = true) ∨ s.inLine label thread = true := by
  rw [standing, Bool.or_eq_true, List.any_eq_true]
  simp only [Table.mem_rows]

theorem othersBring_iff :
    s.othersBring label thread c = true ↔ ∃ c' ∈ s.calls, c'.id ≠ c.id ∧ s.brings label thread c' = true := by
  rw [othersBring, List.any_eq_true]
  simp only [Table.mem_rows, decide_eq_true_eq]

-- Who brings a thread in line: another call than `c`, or `c`, or nobody has to.
theorem standing_cases (mem : c ∈ s.calls) (h : s.standing label thread = true) :
    s.othersBring label thread c = true ∨ s.brings label thread c = true ∨ s.inLine label thread = true := by
  rcases standing_iff.mp h with ⟨c', mem', brings⟩ | line
  · by_cases eq : c'.id = c.id
    · exact .inr (.inl (s.calls.eq_of_key_eq mem' mem eq ▸ brings))
    · exact .inl (othersBring_iff.mpr ⟨c', mem', eq, brings⟩)
  · exact .inr (.inr line)

theorem standing_start (mail : t.mail = s.mail) (calls : t.calls = s.calls)
    (h : (s.standing label thread = true ∧ ∀ r, r.threadId = thread → (r ∈ t.tasks ↔ r ∈ s.tasks)) ∨
      ∀ id, t.brings label thread ⟨id, stage⟩ = true) :
    (t.start stage).standing label thread = true := by
  rw [standing_iff]
  have new : ∀ c, (t.start stage).brings label thread c = t.brings label thread c := fun _ => rfl
  rcases h with ⟨h, same⟩ | own
  · rcases standing_iff.mp h with ⟨c, mem, brings⟩ | line
    · refine .inl ⟨c, Table.mem_insertRow.mpr (.inl (calls ▸ mem)), ?_⟩
      rw [new, brings_congr same, brings]
    · exact .inr ((inLine_congr (t := t.start stage) mail same).trans line)
  · exact .inl ⟨_, Table.mem_insertRow.mpr (.inr rfl), own _⟩

theorem standing_others (calls : t.calls = s.calls) (same : ∀ r, r.threadId = thread → (r ∈ t.tasks ↔ r ∈ s.tasks))
    (h : s.othersBring label thread c = true) : t.othersBring label thread c = true := by
  obtain ⟨c', mem, ne, brings⟩ := othersBring_iff.mp h
  exact othersBring_iff.mpr ⟨c', calls ▸ mem, ne, (brings_congr same).trans brings⟩

theorem standing_put (h : t.othersBring label thread c = true ∨ t.brings label thread { c with stage } = true ∨
    t.inLine label thread = true) : (t.put c stage).standing label thread = true := by
  rw [standing_iff]
  rcases h with h | h | h
  · obtain ⟨c', mem, ne, brings⟩ := othersBring_iff.mp h
    exact .inl ⟨c', Table.mem_replace.mpr (.inl ⟨mem, ne⟩), brings⟩
  · exact .inl ⟨{ c with stage }, Table.mem_replace.mpr (.inr rfl), h⟩
  · exact .inr h

theorem standing_drop (h : t.othersBring label thread c = true ∨ t.inLine label thread = true) :
    (t.drop c).standing label thread = true := by
  rw [standing_iff]
  rcases h with h | h
  · obtain ⟨c', mem, ne, brings⟩ := othersBring_iff.mp h
    exact .inl ⟨c', Table.mem_delete.mpr ⟨mem, by simpa using ne⟩, brings⟩
  · exact .inr h

end State

theorem Message.modify_threadId {m : Message} {isOpen : Bool} {id : String} :
    (m.modify thread isOpen id).threadId = m.threadId := by
  unfold Message.modify
  split <;> [rfl; split <;> rfl]

theorem Message.mem_modify_labels {m : Message} {isOpen : Bool} {id : String} (h : m.threadId = thread) :
    id ∈ (m.modify thread isOpen id).labels ↔ isOpen = true := by
  unfold Message.modify
  rw [if_neg (not_not.mpr h)]
  cases isOpen with
  | false => simp
  | true  =>
    simp only [↓reduceIte]
    split <;> simp [*]

namespace State

-- A label that is written is on a thread afterwards, or off it, whatever was read of it.
theorem inLine_writes {isOpen : Bool} {id : String} (mail : t.mail = s.mail.map (·.modify thread isOpen id))
    (tasks : t.tasks = s.tasks) (known : isOpen = s.hasOpen thread) : t.inLine (some id) thread = true := by
  have open_ : t.hasOpen thread = isOpen := by rw [known, hasOpen, hasOpen, tasks]
  unfold inLine
  cases e : t.stored thread with
  | false => rfl
  | true  =>
    obtain ⟨m, hm, hthread⟩ := List.any_eq_true.mp e
    obtain ⟨m, hm', rfl⟩ := List.mem_map.mp (mail ▸ hm)
    have own : m.threadId = thread := by simpa [Message.modify_threadId] using hthread
    have carries : t.carries (some id) thread = isOpen := by
      rw [Bool.eq_iff_iff]
      simp only [State.carries, Option.any_some, mail, List.any_map, List.any_eq_true, Function.comp_apply,
        decide_eq_true_eq, Message.modify_threadId]
      constructor
      · rintro ⟨m, _, own, mem⟩
        exact (Message.mem_modify_labels own).mp mem
      · intro open_
        exact ⟨m, hm', own, (Message.mem_modify_labels own).mpr open_⟩
    simp [carries, open_]

-- It stays on other threads, or off them.
theorem inLine_writes_other {other : String} {isOpen : Bool} {id : String}
    (mail : t.mail = s.mail.map (·.modify thread isOpen id)) (tasks : t.tasks = s.tasks) (ne : other ≠ thread) :
    t.inLine label other = s.inLine label other := by
  have kept : ∀ m : Message, m.threadId = other → m.modify thread isOpen id = m := fun m own => by
    rw [Message.modify, if_pos (own ▸ ne)]
  have stored : t.stored other = s.stored other := by
    simp only [State.stored, mail, List.any_map, Function.comp_def, Message.modify_threadId]
  have carries : t.carries label other = s.carries label other := by
    simp only [State.carries, mail, List.any_map, Function.comp_def, Message.modify_threadId]
    congr 1
    funext id'
    rw [Bool.eq_iff_iff]
    simp only [List.any_eq_true, decide_eq_true_eq]
    exact exists_congr fun m => and_congr_right fun _ => and_congr_right fun own => by rw [kept m own]
  rw [inLine, inLine, stored, carries, hasOpen, hasOpen, tasks]

-- What a step of a call does to the thread it brings in line, as long as the label that is remembered stays.
structure Followed (s t : State) (thread : String) (f : Follow) (next : Option Follow) : Prop where
  tasks   : t.tasks = s.tasks
  calls   : t.calls = s.calls
  label   : t.label = s.label
  touched : t.touched = s.touched
  deleted : t.deleted = s.deleted
  other   : ∀ other, other ≠ thread → t.inLine s.label other = s.inLine s.label other
  goes    : ∀ f', next = some f' → t.mail = s.mail ∧
    (f.fresh s.label (s.hasOpen thread) = true → f'.fresh s.label (s.hasOpen thread) = true)
  ends    : next = none → f ≠ .creates → f.fresh s.label (s.hasOpen thread) = true → t.inLine s.label thread = true

theorem followed_same {f : Follow} {next : Option Follow}
    (goes : ∀ f', next = some f' → f.fresh s.label (s.hasOpen thread) = true →
      f'.fresh s.label (s.hasOpen thread) = true)
    (ends : next = none → f ≠ .creates → f.fresh s.label (s.hasOpen thread) = true → s.inLine s.label thread = true) :
    Followed s s thread f next where
  tasks   := rfl
  calls   := rfl
  label   := rfl
  touched := rfl
  deleted := rfl
  other   := fun _ _ => rfl
  goes    := fun f' h => ⟨rfl, goes f' h⟩
  ends    := ends

theorem follow_spec {f : Follow} {made : Option String} (ne : ∀ id, f ≠ .remembers id) :
    Followed s (s.follow thread made f).1 thread f (s.follow thread made f).2 := by
  cases f
  case reads => exact followed_same (by rintro _ ⟨⟩ _; simp [Follow.fresh]) (by rintro ⟨⟩)
  case looks read =>
    cases read
    case true =>
      simp only [follow]
      split
      case h_1 id found =>
        refine followed_same ?_ (by rintro ⟨⟩)
        rintro _ ⟨⟩ known
        have eq : s.label = some id := (Option.filter_eq_some_iff.mp found).1
        simpa [Follow.fresh, eq] using known
      case h_2 =>
        refine followed_same ?_ (by rintro ⟨⟩)
        rintro _ ⟨⟩ known
        have read : true = s.hasOpen thread := of_decide_eq_true known
        exact read.symm
    case false =>
      refine followed_same ?_ ?_
      · intro f' h known
        obtain ⟨id, eq, rfl⟩ := Option.map_eq_some_iff.mp h
        simpa [Follow.fresh, eq] using known
      · intro h _ known
        have none_ : s.label = none := Option.map_eq_none_iff.mp h
        have open_ : false = s.hasOpen thread := of_decide_eq_true known
        simp [inLine, carries, none_, ← open_]
  case finds =>
    simp only [follow]
    split <;> exact followed_same (by rintro _ ⟨⟩ known; simpa [Follow.fresh] using known) (by rintro ⟨⟩)
  case creates =>
    cases made with
    | none    => exact followed_same (by rintro _ ⟨⟩) fun _ ne => absurd rfl ne
    | some id => exact ⟨rfl, rfl, rfl, rfl, rfl, fun _ _ => rfl,
        by rintro _ ⟨⟩; exact ⟨rfl, fun known => by simpa [Follow.fresh] using known⟩, (by rintro ⟨⟩)⟩
  case remembers id => exact absurd rfl (ne id)
  case writes read id =>
    refine ⟨rfl, rfl, rfl, rfl, rfl, fun _ ne => inLine_writes_other rfl rfl ne, (by rintro _ ⟨⟩), fun _ _ known => ?_⟩
    obtain ⟨known, eq⟩ : read = s.hasOpen thread ∧ s.label = some id := by simpa [Follow.fresh] using known
    rw [eq]
    exact inLine_writes rfl rfl known

-- A call that is done with a thread, or goes on with it: the thread and all others stand as they did.
theorem goOn_follows {f : Follow} {later : List String} {made : Option String} {th : String} (mem : c ∈ s.calls)
    (stage : c.stage = .follows thread f later) (ne : ∀ id, f ≠ .remembers id) (ok : s.goesOn c made = true)
    (h : s.standing s.label th = true) : (s.goOn c made).standing (s.goOn c made).label th = true := by
  have spec : Followed s (s.follow thread made f).1 thread f (s.follow thread made f).2 := follow_spec ne
  have ok : (s.follow thread made f).2 = none → (f ≠ .creates ∧ f.fresh s.label (s.hasOpen thread) = true) ∨
      s.othersBring s.label thread c = true := by
    intro ends
    unfold goesOn at ok
    rw [stage] at ok
    dsimp only at ok
    split at ok
    · exact absurd rfl (ne _)
    · simpa [ends] using ok
  unfold goOn
  rw [stage]
  dsimp only
  cases e : s.follow thread made f with
  | mk t next =>
    rw [e] at spec ok
    have same : ∀ th r, r.threadId = th → (r ∈ t.tasks ↔ r ∈ s.tasks) := fun _ _ _ => by rw [spec.tasks]
    have open_ : t.hasOpen thread = s.hasOpen thread := hasOpen_congr (same _)
    have brings : s.brings s.label th c = true ↔
        th ∈ later ∨ thread = th ∧ f.fresh s.label (s.hasOpen th) = true := by
      simp [State.brings, stage]
    cases next with
    | some f' =>
      obtain ⟨mail, fresh⟩ := spec.goes f' rfl
      have put : (t.put c (.follows thread f' later)).label = s.label := spec.label
      rw [put]
      refine standing_put ?_
      rcases standing_cases mem h with h | h | h
      · exact .inl (standing_others spec.calls (same _) h)
      · refine .inr (.inl ?_)
        rcases brings.mp h with h | ⟨rfl, known⟩
        · simp [State.brings, h]
        · simp [State.brings, open_, fresh known]
      · exact .inr (.inr ((inLine_congr mail (same _)).trans h))
    | none    =>
      have own : th = thread → t.othersBring s.label th c = true ∨ t.inLine s.label th = true := by
        rintro rfl
        rcases ok rfl with ⟨ne, known⟩ | others
        · exact .inr (spec.ends rfl ne known)
        · exact .inl (standing_others spec.calls (same _) others)
      have rest : t.othersBring s.label th c = true ∨ th ∈ later ∨ t.inLine s.label th = true := by
        by_cases eq : th = thread
        · exact (own eq).imp_right .inr
        · rcases standing_cases mem h with h | h | h
          · exact .inl (standing_others spec.calls (same _) h)
          · exact .inr ((brings.mp h).imp_right fun h => absurd h.1.symm eq)
          · exact .inr (.inr ((spec.other _ eq).trans h))
      cases later with
      | nil               =>
        have drop : (t.drop c).label = s.label := spec.label
        simp only [drop]
        exact standing_drop (by simpa using rest)
      | cons next' later =>
        have put : (t.put c (.follows next' .reads later)).label = s.label := spec.label
        simp only [put]
        refine standing_put ?_
        rcases rest with h | h | h
        · exact .inl h
        · refine .inr (.inl ?_)
          rcases List.mem_cons.mp h with rfl | h
          · simp [State.brings, Follow.fresh]
          · simp [State.brings, h]
        · exact .inr (.inr h)

-- The label that is remembered changes.
theorem goOn_remembers {id : String} {later : List String} {made : Option String} {th : String} (mem : c ∈ s.calls)
    (stage : c.stage = .follows thread (.remembers id) later) (h : s.standing (some id) th = true) :
    (s.goOn c made).standing (s.goOn c made).label th = true := by
  unfold goOn
  rw [stage]
  dsimp only [follow]
  refine @standing_put { s with label := some id } (some id) th _ _ ?_
  rcases standing_cases mem h with h | h | h
  · exact .inl h
  · refine .inr (.inl ?_)
    have brings : th ∈ later ∨ thread = th ∧ s.hasOpen th = true := by
      simpa [State.brings, stage, Follow.fresh] using h
    rcases brings with h | ⟨rfl, open_⟩
    · simp [State.brings, h]
    · have : State.hasOpen { s with label := some id } thread = true := open_
      simp [State.brings, Follow.fresh, this]
  · exact .inr (.inr h)

theorem goOn_marked {id : Nat} {made : Option String} {th : String} (mem : c ∈ s.calls) (stage : c.stage = .marked id)
    (h : s.standing s.label th = true) : (s.goOn c made).standing (s.goOn c made).label th = true := by
  have brings : s.brings s.label th c = true ↔ ∃ r ∈ s.tasks, r.id = id ∧ r.threadId = th := by
    simp [State.brings, stage, Table.mem_rows]
  unfold goOn
  rw [stage]
  dsimp only
  split
  case h_1 none_ =>
    refine standing_drop ?_
    rcases standing_cases mem h with h | h | h
    · exact .inl h
    · obtain ⟨r, hr, rfl, _⟩ := brings.mp h
      exact absurd rfl (Table.find?_eq_none_iff.mp none_ r hr)
    · exact .inr h
  case h_2 r found =>
    refine standing_put ?_
    rcases standing_cases mem h with h | h | h
    · exact .inl h
    · obtain ⟨r', hr', eq, rfl⟩ := brings.mp h
      have : r' = r := s.tasks.eq_of_key_eq hr' (Table.find?_mem found) (eq.trans (Table.find?_key_eq found).symm)
      exact .inr (.inl (by simp [State.brings, this, Follow.fresh]))
    · exact .inr (.inr h)

theorem mem_deleteRow {item : TaskItem} {r : TaskRow} : r ∈ (s.deleteRow item).tasks ↔ r ∈ s.tasks ∧ r.id ≠ item.id := by
  unfold deleteRow
  split
  case h_1 none_ =>
    exact ⟨fun h => ⟨h, Table.find?_eq_none_iff.mp none_ r h⟩, And.left⟩
  case h_2 => simp [Table.mem_delete]

theorem deleteRow_same {item : TaskItem} : (s.deleteRow item).mail = s.mail ∧ (s.deleteRow item).calls = s.calls ∧
    (s.deleteRow item).label = s.label := by
  unfold deleteRow
  split <;> exact ⟨rfl, rfl, rfl⟩

theorem deleteRow_touched {item : TaskItem} (ok : (s.tasks.find? item.id).all (TaskItem.of · = item) = true) :
    ∀ th ∈ (s.deleteRow item).touched, th ∈ s.touched ∨ th = item.threadId := by
  unfold deleteRow
  split
  case h_1 => exact fun _ => .inl
  case h_2 r found =>
    rw [found] at ok
    intro th h
    rcases List.mem_cons.mp h with rfl | h
    · exact .inr (congrArg TaskItem.threadId (of_decide_eq_true ok))
    · exact .inl h

theorem goOn_deletes {item : TaskItem} {made : Option String} {th : String} (mem : c ∈ s.calls)
    (stage : c.stage = .deletes item) (ok : (s.tasks.find? item.id).all (TaskItem.of · = item) = true)
    (h : th = item.threadId ∨ s.standing s.label th = true) :
    (s.goOn c made).standing (s.goOn c made).label th = true := by
  obtain ⟨mail, calls, label⟩ := deleteRow_same (s := s)
  unfold goOn
  rw [stage]
  dsimp only
  have put : ((s.deleteRow item).put c (.follows item.threadId .reads [])).label = s.label := label
  rw [put]
  refine standing_put ?_
  by_cases eq : th = item.threadId
  case pos => exact .inr (.inl (by simp [State.brings, eq, Follow.fresh]))
  case neg =>
    have same : ∀ r, r.threadId = th → (r ∈ (s.deleteRow item).tasks ↔ r ∈ s.tasks) := by
      intro r hr
      rw [mem_deleteRow, and_iff_left_iff_imp]
      intro hr' hid
      rw [Table.find?_eq_some_iff.mpr ⟨hr', hid⟩] at ok
      exact eq (hr.symm.trans (congrArg TaskItem.threadId (of_decide_eq_true ok)))
    rcases standing_cases mem (h.resolve_left eq) with h | h | h
    · exact .inl (standing_others calls same h)
    · exact absurd (of_decide_eq_true (by simpa [State.brings, stage] using h : decide (item.threadId = th) = true)).symm eq
    · exact .inr (.inr ((inLine_congr mail same).trans h))

end State

end Lines

section Rows

variable [Days] {s : State} {tasks tasks' : Table TaskRow TaskRow.id}

theorem mapM_rows {new : List NewTask} {now : Millis} :
    ∀ {rows : List (Nat → TaskRow)}, new.mapM (NewTask.row · now) = .ok rows →
      rows.length = new.length ∧ ∀ mk ∈ rows, ∃ t ∈ new, t.row now = .ok mk := by
  induction new with
  | nil            => rintro _ ⟨⟩; simp
  | cons t new ih =>
    intro rows h
    rw [List.mapM_cons] at h
    obtain ⟨mk, row, h₁⟩ := Except.bind_eq_ok.mp h
    obtain ⟨rest, h₂, e⟩ := Except.bind_eq_ok.mp h₁
    cases Except.pure_eq_ok.mp e
    obtain ⟨length, ih⟩ := ih h₂
    refine ⟨by simp [length], fun mk' mem => ?_⟩
    rcases List.mem_cons.mp mem with rfl | mem
    · exact ⟨t, .head _, row⟩
    · obtain ⟨t', mem, row⟩ := ih mk' mem
      exact ⟨t', .tail _ mem, row⟩

omit [Days] in
theorem nextRowid_insert? {r : TaskRow} (h : tasks.insert? r = some tasks') (hr : r.id = tasks.nextRowid) :
    tasks'.nextRowid = tasks.nextRowid + 1 := by
  obtain ⟨_, rfl⟩ := Table.insert?_eq_some.mp h
  have last : ∀ ids : List Nat, ∀ n, (ids ++ [n]).foldr max 0 = max (ids.foldr max 0) n := fun ids n => by
    induction ids with
    | nil           => simp
    | cons i ids ih => simp only [List.cons_append, List.foldr_cons, ih, max_assoc]
  simp only [Table.nextRowid] at hr ⊢
  simp only [Table.insert, List.map_append, List.map_cons, List.map_nil, last, hr]
  omega

omit [Days] in
-- New tasks get the ids from the next free one on.
theorem mem_insertAll {new : List (Nat → TaskRow)} (id : ∀ mk ∈ new, ∀ n, (mk n).id = n) :
    ∀ {tasks : Table TaskRow TaskRow.id}, insertAll tasks new = some tasks' →
      (∀ r ∈ tasks, r ∈ tasks') ∧ ∀ r ∈ tasks', r ∈ tasks ∨
        tasks.nextRowid ≤ r.id ∧ r.id < tasks.nextRowid + new.length ∧ ∃ mk ∈ new, r = mk r.id := by
  induction new with
  | nil            => rintro _ ⟨⟩; exact ⟨fun _ h => h, fun _ => .inl⟩
  | cons mk new ih =>
    intro tasks h
    obtain ⟨tasks₁, h₁, h⟩ := Option.bind_eq_some_iff.mp (List.foldlM_cons.symm.trans h)
    obtain ⟨old, ih⟩ := ih (fun mk hm => id mk (.tail _ hm)) h
    have hid := id mk (.head _) tasks.nextRowid
    have next := nextRowid_insert? h₁ hid
    refine ⟨fun r hr => old r ((Table.mem_insert? h₁).mpr (.inl hr)), fun r hr => ?_⟩
    rcases ih r hr with hr | ⟨low, up, mk', mem, e⟩
    · rcases (Table.mem_insert? h₁).mp hr with hr | rfl
      · exact .inl hr
      · exact .inr ⟨hid.ge, by rw [hid, List.length_cons]; omega, mk, .head _, by rw [hid]⟩
    · rw [next] at low up
      exact .inr ⟨by omega, by rw [List.length_cons]; omega, mk', .tail _ mem, e⟩

end Rows

section Kept

variable [Days] {s s' t : State} {thread : String} {c : Call}

structure State.Inv (s : State) : Prop where
  rows    : ∀ r ∈ s.tasks, r.Valid
  line    : ∀ thread ∈ s.touched, s.standing s.label thread = true
  deleted : ∀ d ∈ s.deleted, d.row.Valid ∧ d.item = .of d.row ∧ ∀ r ∈ s.tasks, r.id ≠ d.row.id

theorem TaskRow.Valid.setDone {r : TaskRow} (h : r.Valid) {done : Bool} {now : Millis} : (r.setDone done now).Valid := by
  cases done
  case false => exact ⟨h.action, .inl rfl, h.source, h.dueDay⟩
  case true  => exact ⟨h.action, .inr rfl, h.source, h.dueDay⟩

omit [Days] in
theorem TaskRow.setDone_threadId {r : TaskRow} {done : Bool} {now : Millis} :
    (r.setDone done now).threadId = r.threadId := by
  cases done <;> rfl

namespace State

theorem Inv.createTasks {new : List NewTask} {now : Millis} (h : s.Inv) (ok : s.cond (.createTasks new now) = true)
    (hs : s.step (.createTasks new now) = some s') : s'.Inv := by
  obtain ⟨rows, hrows, hs⟩ := Option.bind_eq_some_iff.mp hs
  obtain ⟨tasks, htasks, hs⟩ := Option.bind_eq_some_iff.mp hs
  obtain ⟨length, made⟩ := mapM_rows (Except.ok_of_toOption hrows)
  have valid : ∀ mk ∈ rows, ∀ n, (mk n).Valid ∧ (mk n).id = n ∧ (mk n).threadId ∈ new.map NewTask.threadId := by
    intro mk hm n
    obtain ⟨t, ht, row⟩ := made mk hm
    obtain ⟨valid, id, thread⟩ := NewTask.row_valid row n
    exact ⟨valid, id, List.mem_map.mpr ⟨t, ht, thread.symm⟩⟩
  obtain ⟨old, new_⟩ := mem_insertAll (fun mk hm n => (valid mk hm n).2.1) htasks
  split at hs
  case h_1 => cases hs
  case h_2 first later threads =>
    obtain rfl := Option.some.inj hs
    constructor
    case rows =>
      intro r hr
      rcases new_ r hr with hr | ⟨_, _, mk, hm, e⟩
      · exact h.rows r hr
      · exact e ▸ (valid mk hm r.id).1
    case line =>
      intro thread mem
      refine standing_start (s := s) rfl rfl ?_
      by_cases new' : thread ∈ new.map NewTask.threadId
      case pos =>
        refine .inr fun id => ?_
        have : thread ∈ first :: later := threads ▸ List.mem_eraseDups.mpr new'
        rcases List.mem_cons.mp this with rfl | mem
        · simp [brings, Follow.fresh]
        · simp [brings, mem]
      case neg =>
        refine .inl ⟨h.line thread ((List.mem_append.mp mem).resolve_left new'), fun r hr => ⟨fun hr' => ?_, old r⟩⟩
        rcases new_ r hr' with hr' | ⟨_, _, mk, hm, e⟩
        · exact hr'
        · have own := (valid mk hm r.id).2.2
          rw [← e, hr] at own
          exact absurd own new'
    case deleted =>
      intro d hd
      obtain ⟨valid, item, free⟩ := h.deleted d hd
      refine ⟨valid, item, fun r hr => ?_⟩
      rcases new_ r hr with hr | ⟨low, up, _⟩
      · exact free r hr
      · have := of_decide_eq_true (List.all_eq_true.mp ok d hd)
        omega

theorem Inv.setTaskDone {id : Nat} {done : Bool} {now : Millis} (h : s.Inv)
    (hs : s.step (.setTaskDone id done now) = some s') : s'.Inv := by
  obtain ⟨r, found, hs⟩ := Option.bind_eq_some_iff.mp hs
  cases hs
  have hr := Table.find?_mem found
  have hid := Table.find?_key_eq found
  have mem : ∀ r', r' ∈ s.tasks.update (·.id = id) (·.setDone done now) (fun _ => TaskRow.setDone_id) ↔
      (r' ∈ s.tasks ∧ r'.id ≠ id) ∨ r' = r.setDone done now := by
    intro r'
    rw [Table.mem_update]
    simp only [decide_eq_false_iff_not, decide_eq_true_eq]
    refine or_congr_right ⟨?_, fun e => ⟨r, hr, hid, e.symm⟩⟩
    rintro ⟨r'', hr'', hid'', rfl⟩
    rw [s.tasks.eq_of_key_eq hr'' hr (hid''.trans hid.symm)]
  constructor
  case rows =>
    intro r' hr'
    rcases (mem r').mp hr' with ⟨hr', _⟩ | rfl
    · exact h.rows r' hr'
    · exact (h.rows r hr).setDone
  case line =>
    intro thread touched
    refine standing_start (s := s) rfl rfl ?_
    by_cases own : thread = r.threadId
    case pos =>
      refine .inr fun _ => ?_
      simp only [brings, List.any_eq_true, decide_eq_true_eq]
      exact ⟨_, (mem _).mpr (.inr rfl), TaskRow.setDone_id.trans hid, TaskRow.setDone_threadId.trans own.symm⟩
    case neg =>
      refine .inl ⟨h.line thread ((List.mem_cons.mp touched).resolve_left own), fun r' hr' => (mem r').trans ?_⟩
      constructor
      · rintro (⟨hr', _⟩ | rfl)
        · exact hr'
        · exact absurd (hr'.symm.trans TaskRow.setDone_threadId) own
      · intro mem'
        refine .inl ⟨mem', fun eq => own ?_⟩
        rw [← hr', s.tasks.eq_of_key_eq mem' hr (eq.trans hid.symm)]
  case deleted =>
    intro d hd
    obtain ⟨valid, item, free⟩ := h.deleted d hd
    refine ⟨valid, item, fun r' hr' => ?_⟩
    rcases (mem r').mp hr' with ⟨hr', _⟩ | rfl
    · exact free r' hr'
    · exact TaskRow.setDone_id.symm ▸ free r hr

theorem Inv.deleteTask {id : Nat} (h : s.Inv) (hs : s.step (.deleteTask id) = some s') : s'.Inv := by
  obtain ⟨r, _, hs⟩ := Option.bind_eq_some_iff.mp hs
  cases hs
  exact ⟨h.rows, fun thread touched => standing_start rfl rfl (.inl ⟨h.line thread touched, fun _ _ => Iff.rfl⟩), h.deleted⟩

theorem Inv.restoreTask {task : TaskItem} (h : s.Inv) (hs : s.step (.restoreTask task) = some s') : s'.Inv := by
  obtain ⟨row, hrow, hs⟩ := Option.bind_eq_some_iff.mp hs
  obtain ⟨tasks, htasks, hs⟩ := Option.bind_eq_some_iff.mp hs
  cases hs
  obtain ⟨valid, id, thread⟩ := TaskItem.row_valid (Except.ok_of_toOption hrow)
  have mem : ∀ r, r ∈ tasks ↔ r ∈ s.tasks ∨ r = row := fun _ => Table.mem_insert? htasks
  constructor
  case rows =>
    intro r hr
    rcases (mem r).mp hr with hr | rfl
    · exact h.rows r hr
    · exact valid
  case line =>
    intro thread' touched
    refine standing_start (s := s) rfl rfl ?_
    by_cases own : thread' = task.threadId
    case pos => exact .inr fun _ => by simp [brings, own, Follow.fresh]
    case neg =>
      refine .inl ⟨h.line thread' ((List.mem_cons.mp touched).resolve_left own), fun r hr => (mem r).trans ?_⟩
      exact or_iff_left fun e => own (hr.symm.trans (e ▸ thread))
  case deleted =>
    intro d hd
    obtain ⟨hd, ne⟩ := List.mem_filter.mp hd
    obtain ⟨valid, item, free⟩ := h.deleted d hd
    refine ⟨valid, item, fun r hr => ?_⟩
    rcases (mem r).mp hr with hr | rfl
    · exact free r hr
    · exact id ▸ (of_decide_eq_true ne).symm

-- What a step of a call leaves as it was, but for the task that it deletes.
omit [Days] in
theorem goOn_rows {made : Option String} (stage : ∀ item, c.stage ≠ .deletes item) :
    (s.goOn c made).tasks = s.tasks ∧ (s.goOn c made).touched = s.touched ∧ (s.goOn c made).deleted = s.deleted := by
  unfold goOn
  split
  case h_1 => split <;> exact ⟨rfl, rfl, rfl⟩
  case h_2 item e => exact absurd e (stage item)
  case h_3 thread f later _ =>
    have same : (s.follow thread made f).1.tasks = s.tasks ∧ (s.follow thread made f).1.touched = s.touched ∧
        (s.follow thread made f).1.deleted = s.deleted := by
      by_cases remembers : ∃ id, f = .remembers id
      case pos => obtain ⟨_, rfl⟩ := remembers; exact ⟨rfl, rfl, rfl⟩
      case neg =>
        have spec : Followed s (s.follow thread made f).1 thread f (s.follow thread made f).2 :=
          follow_spec fun id e => remembers ⟨id, e⟩
        exact ⟨spec.tasks, spec.touched, spec.deleted⟩
    split <;> simp_all [put, drop]

theorem Inv.goOn_deletes {item : TaskItem} {made : Option String} (h : s.Inv) (mem : c ∈ s.calls)
    (stage : c.stage = .deletes item) (ok : s.goesOn c made = true) : (s.goOn c made).Inv := by
  have ok : (s.tasks.find? item.id).all (TaskItem.of · = item) = true := by simpa [goesOn, stage] using ok
  have same : (s.goOn c made).tasks = (s.deleteRow item).tasks ∧ (s.goOn c made).touched = (s.deleteRow item).touched ∧
      (s.goOn c made).deleted = (s.deleteRow item).deleted := by
    unfold goOn
    rw [stage]
    exact ⟨rfl, rfl, rfl⟩
  have deleted : ∀ d ∈ (s.deleteRow item).deleted, d ∈ s.deleted ∨ d.row ∈ s.tasks ∧ d.row.id = item.id ∧ d.item = .of d.row := by
    unfold deleteRow
    split
    case h_1 => exact fun _ => .inl
    case h_2 r found =>
      rw [found] at ok
      intro d hd
      rcases List.mem_cons.mp hd with rfl | hd
      · exact .inr ⟨Table.find?_mem found, Table.find?_key_eq found, (of_decide_eq_true ok).symm⟩
      · exact .inl hd
  constructor
  case rows =>
    intro r hr
    exact h.rows r (mem_deleteRow.mp (same.1 ▸ hr)).1
  case line =>
    intro thread touched
    have touched := deleteRow_touched ok thread (same.2.1 ▸ touched)
    exact State.goOn_deletes mem stage ok (touched.symm.imp_right (h.line thread))
  case deleted =>
    intro d hd
    rw [same.2.2] at hd
    rw [same.1]
    rcases deleted d hd with hd | ⟨mem, id, item⟩
    · obtain ⟨valid, item, free⟩ := h.deleted d hd
      exact ⟨valid, item, fun r hr => free r (mem_deleteRow.mp hr).1⟩
    · exact ⟨h.rows _ mem, item, fun r hr => id ▸ (mem_deleteRow.mp hr).2⟩

theorem Inv.goOn {made : Option String} (h : s.Inv) (mem : c ∈ s.calls) (ok : s.goesOn c made = true) :
    (s.goOn c made).Inv := by
  by_cases deletes : ∃ item, c.stage = .deletes item
  case pos =>
    obtain ⟨item, stage⟩ := deletes
    exact h.goOn_deletes mem stage ok
  case neg =>
    obtain ⟨tasks, touched, deleted⟩ := goOn_rows (s := s) fun item stage => deletes ⟨item, stage⟩
    refine ⟨tasks ▸ h.rows, fun thread mem' => ?_, by rw [deleted, tasks]; exact h.deleted⟩
    rw [touched] at mem'
    cases stage : c.stage with
    | marked id                => exact goOn_marked mem stage (h.line thread mem')
    | deletes item             => exact absurd ⟨item, stage⟩ deletes
    | follows thread' f later  =>
      by_cases remembers : ∃ id, f = .remembers id
      case neg => exact goOn_follows mem stage (fun id e => remembers ⟨id, e⟩) ok (h.line thread mem')
      case pos =>
        obtain ⟨id, rfl⟩ := remembers
        refine goOn_remembers mem stage ?_
        have ok : s.label = some id ∨ ∀ th ∈ s.touched, s.standing (some id) th = true := by
          simpa [goesOn, stage] using ok
        rcases ok with eq | all
        · exact eq ▸ h.line thread mem'
        · exact all thread mem'

theorem Inv.step {a : Action} (h : s.Inv) (ok : s.cond a = true) (hs : s.step a = some s') : s'.Inv := by
  cases a
  case createTasks  => exact h.createTasks ok hs
  case setTaskDone  => exact h.setTaskDone hs
  case deleteTask   => exact h.deleteTask hs
  case restoreTask  => exact h.restoreTask hs
  case goOn call made =>
    obtain ⟨c, found, hs⟩ := Option.bind_eq_some_iff.mp hs
    cases hs
    refine h.goOn (Table.find?_mem found) ?_
    simpa [cond, found] using ok

theorem Inv.follows (h : s.Inv) : s.Follows := by
  constructor
  case label =>
    intro finished thread touched stored
    rcases standing_iff.mp (h.line thread touched) with ⟨c, mem, _⟩ | line
    · rw [← Table.mem_rows, finished] at mem
      cases mem
    · simpa [inLine, stored] using line
  case restores =>
    intro d hd
    obtain ⟨valid, item, free⟩ := h.deleted d hd
    have inserted := Table.insert?_eq_some.mpr ⟨free, rfl⟩
    refine ⟨_, ?_, Table.find?_eq_some_iff.mpr ⟨(Table.mem_insert? inserted).mpr (.inr rfl), rfl⟩⟩
    rw [item, valid.row_of]
    exact inserted

theorem reachable_follows (h : taskCalls.Reachable (fun s a => s.cond a = true) s) : s.Follows := by
  refine Inv.follows ?_
  apply h.invariant
  case start =>
    rintro s ⟨rows, _, touched, deleted⟩
    exact ⟨rows, by simp [touched], by simp [deleted]⟩
  case step => exact fun _ _ _ h ok hs => h.step ok hs

end State

end Kept

section Examples

-- A calendar of one day.
abbrev mayFirst : Days where
  parse s    := if s = "2026-05-01" then some s else none
  reads h    := by grind
  trimmed h  := by
    obtain ⟨rfl, h⟩ := Option.ite_none_right_eq_some.mp h
    cases h
    decide
  nonempty h := by
    obtain ⟨rfl, h⟩ := Option.ite_none_right_eq_some.mp h
    cases h
    decide

-- A mailbox of one thread, whose label is there.
def mailbox : State where
  label  := some "Label_1"
  labels := (∅ : Table Label Label.id).replace { id := "Label_1", name := "task" }
  mail   := [{ threadId := "t", labels := ["INBOX"] }]

def answer : NewTask where
  threadId := "t"
  title    := "Answer it"
  category := "Reply"
  dueDay   := some " 2026-05-01"
  action   := .reply

theorem mailbox_start : (@taskCalls mayFirst).Start mailbox :=
  ⟨fun _ h => absurd h Table.not_mem_empty, rfl, rfl, rfl⟩

def goOn (call times : Nat) : List Action :=
  List.replicate times (.goOn call none)

-- Two tasks are made, the first is done and then deleted.
theorem reachable_follows_deleted : ∃ s : State, @State.Follows s mayFirst ∧ s.calls.rows = [] ∧ "t" ∈ s.touched ∧
    s.hasOpen "t" = true ∧ s.deleted.map (·.row.id) = [1] := by
  have run : ((@taskCalls mayFirst).run (fun s a => s.cond a = true) mailbox
      ([.createTasks [answer, answer] 1] ++ goOn 1 3 ++ [.setTaskDone 1 true 2] ++ goOn 1 4 ++ [.deleteTask 1] ++
        goOn 1 4)).any fun s => s.calls.rows = [] ∧ "t" ∈ s.touched ∧ s.hasOpen "t" = true ∧
          s.deleted.map (·.row.id) = [1] := by decide
  obtain ⟨s, hs, ends⟩ := (Option.any_eq_true _ _).mp run
  exact ⟨s, @State.reachable_follows mayFirst s (.run (.start mailbox_start) hs), of_decide_eq_true ends⟩

-- One call finds the thread's task open; another marks the task done and takes the label off before it is put on. And a
-- new task gets the id of the one that was deleted.
theorem stale_and_taken :
    (∃ s : State, (@taskCalls mayFirst).Reachable (fun _ _ => True) s ∧ s.hasOpen "t" = false ∧
      s.carries s.label "t" = true ∧ ¬@State.Follows s mayFirst) ∧
    ∃ s : State, (@taskCalls mayFirst).Reachable (fun _ _ => True) s ∧
      (∃ d ∈ s.deleted, ∃ r ∈ s.tasks.rows, r.id = d.row.id) ∧ ¬@State.Follows s mayFirst := by
  constructor
  · have run : ((@taskCalls mayFirst).run (fun _ _ => True) mailbox
        ([.createTasks [answer] 1] ++ goOn 1 2 ++ [.setTaskDone 1 true 2] ++ goOn 2 4 ++ goOn 1 1)).any fun s =>
          s.calls.rows = [] ∧ "t" ∈ s.touched ∧ s.stored "t" = true ∧ s.hasOpen "t" = false ∧
            s.carries s.label "t" = true := by decide
    obtain ⟨s, hs, stale⟩ := (Option.any_eq_true _ _).mp run
    obtain ⟨finished, touched, stored, closed, carried⟩ := of_decide_eq_true stale
    refine ⟨s, .run (.start mailbox_start) hs, closed, carried, fun h => ?_⟩
    have := @State.Follows.label s mayFirst h finished "t" touched stored
    rw [closed, carried] at this
    cases this
  · have run : ((@taskCalls mayFirst).run (fun _ _ => True) mailbox
        ([.createTasks [answer] 1] ++ goOn 1 3 ++ [.deleteTask 1] ++ goOn 1 4 ++ [.createTasks [answer] 2])).any fun s =>
          (∃ d ∈ s.deleted, ∃ r ∈ s.tasks.rows, r.id = d.row.id) ∧
            ∃ d ∈ s.deleted, ((@TaskItem.row mayFirst d.item).toOption.bind s.tasks.insert?).isNone = true := by decide
    obtain ⟨s, hs, taken⟩ := (Option.any_eq_true _ _).mp run
    obtain ⟨same, d, hd, none_⟩ := of_decide_eq_true taken
    refine ⟨s, .run (.start mailbox_start) hs, same, fun h => ?_⟩
    obtain ⟨tasks, restored, _⟩ := @State.Follows.restores s mayFirst h d hd
    rw [restored] at none_
    cases none_

end Examples

end Kaluta.Tasks
