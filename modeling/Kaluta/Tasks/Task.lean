import Kaluta.Guide.Entry
import Kaluta.Lib.Fallible
import Kaluta.Lib.Table
import Kaluta.Lib.Execution

-- Tasks made from email: what is stored of one, and what is given out of it and taken back.
namespace Kaluta.Tasks

open Guide (trim cleanText splitWhitespace)

abbrev Millis := Int

-- What the calendar knows of days: a text read as `%Y-%m-%d` and written out so.
class Days where
  parse    : String → Option String
  -- A day that is written out reads as itself, and has no blank around it.
  reads    : parse s = some d → parse d = some d
  trimmed  : parse s = some d → trim d = d
  nonempty : parse s = some d → d ≠ ""

inductive TaskAction
  | reply
  | replyAll
  | forward
  -- Nothing to send.
  | noEmail
  deriving DecidableEq

def TaskAction.asStr : TaskAction → String
  | .reply    => "reply"
  | .replyAll => "reply_all"
  | .forward  => "forward"
  | .noEmail  => "none"

def TaskAction.parse (s : String) : Option TaskAction :=
  let s : String := .ofList ((trim s).toList.map fun c => if c = ' ' ∨ c = '-' then '_' else c.toLower)
  if s = "reply" then some .reply
  else if s = "reply_all" ∨ s = "replyall" then some .replyAll
  else if s = "forward" then some .forward
  else if s = "none" ∨ s = "" then some .noEmail
  else none

-- A task as stored.
structure TaskRow where
  id          : Nat
  threadId    : String
  messageId   : Option String
  title       : String
  notes       : String := ""
  category    : String
  dueDay      : Option String := none
  action      : String := "none"
  status      : String := "open"
  source      : String
  why         : String := ""
  createdAt   : Millis
  completedAt : Option Millis := none
  deriving DecidableEq

-- A task as given out.
structure TaskItem where
  id          : Nat
  threadId    : String
  messageId   : Option String
  title       : String
  notes       : String
  category    : String
  dueDay      : Option String
  action      : TaskAction
  done        : Bool
  fromAi      : Bool
  why         : String
  createdAt   : Millis
  completedAt : Option Millis
  deriving DecidableEq

def TaskItem.of (t : TaskRow) : TaskItem where
  id          := t.id
  threadId    := t.threadId
  messageId   := t.messageId
  title       := t.title
  notes       := t.notes
  category    := t.category
  dueDay      := t.dueDay
  action      := (TaskAction.parse t.action).getD .noEmail
  done        := t.status = "done"
  fromAi      := t.source = "ai"
  why         := t.why
  createdAt   := t.createdAt
  completedAt := t.completedAt

structure NewTask where
  threadId  : String
  messageId : Option String := none
  title     : String
  notes     : String := ""
  category  : String
  dueDay    : Option String := none
  action    : TaskAction := .noEmail
  why       : String := ""
  fromAi    : Bool := false

structure TaskFields where
  title    : String
  notes    : String
  category : String
  dueDay   : Option String
  action   : String

section Checks

variable [Days]

-- A valid day, trimmed; none for a blank.
def dueDay (day : Option String) : Except String (Option String) :=
  match (day.map trim).filter (· ≠ "") with
  | none   => .ok none
  | some d => match Days.parse d with
    | some day => .ok (some day)
    | none     => .error (d ++ " is not a date (YYYY-MM-DD)")

def fields (title notes category : String) (due : Option String) (action : TaskAction) : Except String TaskFields := do
  let title := cleanText title
  if title = "" then .error "a task needs a title"
  else
    let category := trim category
    if category = "" then .error "a task needs a category"
    else
      let due ← dueDay due
      .ok { title, notes := trim notes, category, dueDay := due, action := action.asStr }

-- A new task's row, but for its id.
def NewTask.row (t : NewTask) (now : Millis) : Except String (Nat → TaskRow) :=
  if t.threadId = "" then .error "a task is about an email"
  else do
    let f ← fields t.title t.notes t.category t.dueDay t.action
    .ok fun id => {
      id, threadId := t.threadId, messageId := t.messageId, title := f.title, notes := f.notes, category := f.category
      dueDay := f.dueDay, action := f.action, source := if t.fromAi then "ai" else "you", why := cleanText t.why
      createdAt := now
    }

-- The row that puts a task back.
def TaskItem.row (task : TaskItem) : Except String TaskRow := do
  let due ← Tasks.dueDay task.dueDay
  .ok {
    id := task.id, threadId := task.threadId, messageId := task.messageId, title := task.title, notes := task.notes
    category := task.category, dueDay := due, action := task.action.asStr
    status := if task.done then "done" else "open", source := if task.fromAi then "ai" else "you", why := task.why
    createdAt := task.createdAt, completedAt := task.completedAt
  }

-- What the table's checks and the writers keep to.
structure TaskRow.Valid (t : TaskRow) : Prop where
  action : ∃ a : TaskAction, t.action = a.asStr
  status : t.status = "open" ∨ t.status = "done"
  source : t.source = "ai" ∨ t.source = "you"
  dueDay : Tasks.dueDay t.dueDay = .ok t.dueDay

omit [Days] in
theorem TaskAction.parse_asStr (a : TaskAction) : parse a.asStr = some a := by
  cases a <;> decide

theorem dueDay_idempotent {day day' : Option String} (h : dueDay day = .ok day') : dueDay day' = .ok day' := by
  unfold dueDay at h
  split at h
  case h_1 => cases h; rfl
  case h_2 =>
    split at h
    case h_1 d _ day parsed =>
      cases h
      have filtered : ((some day).map trim).filter (· ≠ "") = some day := by
        simp [Days.trimmed parsed, Days.nonempty parsed]
      rw [dueDay, filtered]
      simp only [Days.reads parsed]
    case h_2 => cases h

-- What is given out of a task puts the same task back.
theorem TaskRow.Valid.row_of {t : TaskRow} (h : t.Valid) : (TaskItem.of t).row = .ok t := by
  obtain ⟨a, action⟩ := h.action
  have act : ((TaskAction.parse t.action).getD .noEmail).asStr = t.action := by
    rw [action, TaskAction.parse_asStr, Option.getD_some]
  have status : (if (TaskItem.of t).done then "done" else "open") = t.status := by
    rcases h.status with e | e <;> simp [TaskItem.of, e]
  have source : (if (TaskItem.of t).fromAi then "ai" else "you") = t.source := by
    rcases h.source with e | e <;> simp [TaskItem.of, e]
  refine Except.bind_eq_ok.mpr ⟨_, h.dueDay, congrArg Except.ok ?_⟩
  rw [status, source]
  simp only [TaskItem.of, act]

theorem TaskItem.row_valid {task : TaskItem} {t : TaskRow} (h : task.row = .ok t) :
    t.Valid ∧ t.id = task.id ∧ t.threadId = task.threadId := by
  obtain ⟨d, due, h⟩ := Except.bind_eq_ok.mp h
  cases h
  refine ⟨⟨⟨_, rfl⟩, ?_, ?_, dueDay_idempotent due⟩, rfl, rfl⟩
  · cases task.done <;> simp
  · cases task.fromAi <;> simp

theorem fields_valid {title notes category : String} {due : Option String} {action : TaskAction} {f : TaskFields}
    (h : fields title notes category due action = .ok f) :
    f.action = action.asStr ∧ Tasks.dueDay f.dueDay = .ok f.dueDay := by
  unfold fields at h
  dsimp only at h
  split at h
  case isTrue => cases h
  case isFalse =>
    split at h
    case isTrue => cases h
    case isFalse =>
      obtain ⟨d, due, h⟩ := Except.bind_eq_ok.mp h
      cases h
      exact ⟨rfl, dueDay_idempotent due⟩

theorem NewTask.row_valid {t : NewTask} {now : Millis} {mk : Nat → TaskRow} (h : t.row now = .ok mk) (id : Nat) :
    (mk id).Valid ∧ (mk id).id = id ∧ (mk id).threadId = t.threadId := by
  unfold NewTask.row at h
  split at h
  case isTrue => cases h
  case isFalse =>
    obtain ⟨f, checked, h⟩ := Except.bind_eq_ok.mp h
    cases h
    obtain ⟨action, due⟩ := fields_valid checked
    refine ⟨⟨⟨_, action⟩, .inl rfl, ?_, due⟩, rfl, rfl⟩
    cases t.fromAi <;> simp

end Checks

end Kaluta.Tasks

-- The calls that change tasks, and the account's label that follows the open ones.
namespace Kaluta.Tasks

open Guide (eqIgnoreAsciiCase)

def TASK_LABEL : String := "Task"

structure Label where
  id   : String
  name : String
  deriving DecidableEq

structure Message where
  threadId : String
  labels   : List String

-- What a call that brings a thread's label in line does next.
inductive Follow
  | reads
  -- Asks for the label, knowing whether the thread has an open task.
  | looks (isOpen : Bool)
  -- Looks among the labels for one of that name.
  | finds
  | creates
  | remembers (id : String)
  | writes (isOpen : Bool) (id : String)
  deriving DecidableEq

inductive Stage
  -- Marked a task, and reads it.
  | marked (task : Nat)
  -- Deletes the task it read.
  | deletes (item : TaskItem)
  -- Brings threads in line, one after another.
  | follows (thread : String) (f : Follow) (later : List String)
  deriving DecidableEq

-- A call that has not finished.
structure Call where
  id    : Nat
  stage : Stage
  deriving DecidableEq

-- A task that was deleted, and what the call gave out of it.
structure Deleted where
  row  : TaskRow
  item : TaskItem
  deriving DecidableEq

structure State where
  tasks   : Table TaskRow TaskRow.id := ∅
  -- The id of the account's label, once it is remembered.
  label   : Option String := none
  labels  : Table Label Label.id := ∅
  mail    : List Message := []
  calls   : Table Call Call.id := ∅
  -- The threads on which a call changed a task.
  touched : List String := []
  -- The deleted tasks that are not put back.
  deleted : List Deleted := []

inductive Action
  | createTasks (new : List NewTask) (now : Millis)
  | setTaskDone (id : Nat) (done : Bool) (now : Millis)
  | deleteTask (id : Nat)
  | restoreTask (task : TaskItem)
  -- A call takes its next step; the provider answers with the label it made, if it is asked.
  | goOn (call : Nat) (made : Option String)

section Changes

def TaskRow.setDone (t : TaskRow) (done : Bool) (now : Millis) : TaskRow :=
  if done then { t with status := "done", completedAt := some now } else { t with status := "open", completedAt := none }

theorem TaskRow.setDone_id {t : TaskRow} {done : Bool} {now : Millis} : (t.setDone done now).id = t.id := by
  cases done <;> rfl

-- The ids of new tasks are the next free ones.
def insertAll (tasks : Table TaskRow TaskRow.id) (new : List (Nat → TaskRow)) : Option (Table TaskRow TaskRow.id) :=
  new.foldlM (fun tasks mk => tasks.insert? (mk tasks.nextRowid)) tasks

def Message.modify (m : Message) (thread : String) (isOpen : Bool) (id : String) : Message :=
  if m.threadId ≠ thread then m
  else if isOpen then { m with labels := if id ∈ m.labels then m.labels else m.labels ++ [id] }
  else { m with labels := m.labels.filter (· ≠ id) }

end Changes

namespace State

variable (s : State)

-- Whether a thread has an open task.
def hasOpen (thread : String) : Bool :=
  s.tasks.rows.any fun t => t.threadId = thread ∧ t.status = "open"

def start (stage : Stage) : State :=
  { s with calls := s.calls.insertRow (fun id => { id, stage }) fun _ => rfl }

def put (c : Call) (stage : Stage) : State :=
  { s with calls := s.calls.replace { c with stage } }

def drop (c : Call) : State :=
  { s with calls := s.calls.delete (·.id = c.id) }

-- The label that is remembered, if it is still there.
def remembered : Option String :=
  s.label.filter fun id => s.labels.rows.any (·.id = id)

-- The label of that name, in any case.
def named : Option String :=
  (s.labels.rows.find? fun l => eqIgnoreAsciiCase l.name TASK_LABEL).map (·.id)

-- One step of `follow_task_label`; the thread is done with if none is left.
def follow (thread : String) (made : Option String) : Follow → State × Option Follow
  | .reads            => (s, some (.looks (s.hasOpen thread)))
  | .looks true       =>
    match s.remembered with
    | some id => (s, some (.writes true id))
    | none    => (s, some .finds)
  -- Nothing to take off if no label was ever made.
  | .looks false      => (s, s.label.map (.writes false))
  | .finds            =>
    match s.named with
    | some id => (s, some (.remembers id))
    | none    => (s, some .creates)
  | .creates          =>
    match made with
    | some id => ({ s with labels := s.labels.replace { id, name := TASK_LABEL } }, some (.remembers id))
    | none    => (s, none)
  | .remembers id     => ({ s with label := some id }, some (.writes true id))
  | .writes isOpen id => ({ s with mail := s.mail.map (·.modify thread isOpen id) }, none)

def deleteRow (item : TaskItem) : State :=
  match s.tasks.find? item.id with
  | none   => s
  | some t => { s with
    tasks := s.tasks.delete (·.id = item.id), touched := t.threadId :: s.touched, deleted := ⟨t, item⟩ :: s.deleted }

def goOn (c : Call) (made : Option String) : State :=
  match c.stage with
  | .marked id               =>
    match s.tasks.find? id with
    | none   => s.drop c
    | some t => s.put c (.follows t.threadId .reads [])
  | .deletes item            => (s.deleteRow item).put c (.follows item.threadId .reads [])
  | .follows thread f later  =>
    match s.follow thread made f, later with
    | (s, some f), later         => s.put c (.follows thread f later)
    | (s, none)  , next :: later => s.put c (.follows next .reads later)
    | (s, none)  , []            => s.drop c

variable [Days]

def step (a : Action) : Option State :=
  match a with
  | .createTasks new now      => do
    let rows ← (new.mapM (NewTask.row · now)).toOption
    let tasks ← insertAll s.tasks rows
    match (new.map NewTask.threadId).eraseDups with
    | []              => none
    | thread :: later =>
      some ({ s with tasks, touched := new.map NewTask.threadId ++ s.touched }.start (.follows thread .reads later))
  | .setTaskDone id done now  => do
    let t ← s.tasks.find? id
    let tasks := s.tasks.update (·.id = id) (·.setDone done now) fun _ => TaskRow.setDone_id
    some ({ s with tasks, touched := t.threadId :: s.touched }.start (.marked id))
  | .deleteTask id            => do
    let t ← s.tasks.find? id
    some (s.start (.deletes (.of t)))
  | .restoreTask task         => do
    let row ← task.row.toOption
    let tasks ← s.tasks.insert? row
    some ({ s with
      tasks, touched := task.threadId :: s.touched, deleted := s.deleted.filter (·.row.id ≠ task.id)
    }.start (.follows task.threadId .reads []))
  | .goOn call made           => do
    let c ← s.calls.find? call
    some (s.goOn c made)

end State

-- Any tasks that the checks of the table let in, any label and mail; no call is on its way.
def taskCalls [Days] : System State Action where
  Start s := (∀ t ∈ s.tasks, t.Valid) ∧ s.calls = ∅ ∧ s.touched = [] ∧ s.deleted = []
  step s  := s.step

end Kaluta.Tasks
