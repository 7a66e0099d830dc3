import Kaluta.Guide.Entry
import Kaluta.Lib.Execution

-- Imports of mailbox files into one archive account, and the calls that start, name and cancel them.
namespace Kaluta.Archive

open Guide (trim cleanText trim_trim trim_cleanText)

-- An archive account's details, as its file keeps them.
structure ArchiveMeta where
  kind        : String
  name        : String
  sourcePath  : String
  importedAt  : Millis
  messages    : Nat
  bytes       : Nat
  myAddresses : List String
  deriving DecidableEq

-- What a file's reader gives: a message, by the key that it has in the file, or what is none.
inductive Item
  | message (key : String)
  | unreadable
  deriving DecidableEq

-- Messages in a store transaction.
def IMPORT_BATCH : Nat := 200

structure ImportStats where
  imported   : Nat := 0
  duplicates : Nat := 0
  unreadable : Nat := 0
  cancelled  : Bool := false
  deriving DecidableEq

-- A file that is being read.
structure Reader where
  rest       : List Item
  seenInFile : List String := []
  batch      : List String := []
  stats      : ImportStats := {}
  deriving DecidableEq

namespace Reader

def take (r : Reader) : Item → Reader
  | .message key =>
    if key ∈ r.seenInFile then { r with stats := { r.stats with duplicates := r.stats.duplicates + 1 } }
    else { r with seenInFile := key :: r.seenInFile, batch := r.batch ++ [key] }
  | .unreadable => { r with stats := { r.stats with unreadable := r.stats.unreadable + 1 } }

-- The batch is written, less what the store has in another message.
def writeBatch (r : Reader) (inStore : List String) : Reader :=
  let written := (r.batch.filter (· ∉ inStore)).length
  { r with
    batch := []
    stats := { r.stats with
      imported   := r.stats.imported + written
      duplicates := r.stats.duplicates + (r.batch.length - written) } }

end Reader

-- A running import.
structure Import where
  copy    : ArchiveMeta               -- The details as they were when it started.
  files   : List (List Item)          -- The files that have not been opened.
  reading : Option Reader := none
  total   : ImportStats := {}
  cancel  : Bool := false
  found   : Option Nat := none        -- The batches written since `cancel_import` found it running.
  deriving DecidableEq

namespace Import

def closed (imp : Import) (stats : ImportStats) : Import :=
  { imp with
    reading := none
    total   := {
      imported   := imp.total.imported + stats.imported
      duplicates := imp.total.duplicates + stats.duplicates
      unreadable := imp.total.unreadable + stats.unreadable
      cancelled  := imp.total.cancelled || stats.cancelled } }

def wrote (imp : Import) : Import :=
  { imp with found := imp.found.map (· + 1) }

-- Opens the next file, or takes the loop of `import_mbox` one turn further.
def next (imp : Import) (inStore : List String) : Import :=
  match imp.reading, imp.files with
  | none, []            => imp
  | none, file :: files => { imp with files, reading := some { rest := file } }
  | some r, _ =>
    match r.rest with
    | item :: rest =>
      let r := { r with rest }.take item
      if IMPORT_BATCH ≤ r.batch.length then
        let r := r.writeBatch inStore
        if imp.cancel then imp.wrote.closed { r.stats with cancelled := true }
        else { imp.wrote with reading := some r }
      else { imp with reading := some r }
    | [] =>
      if r.batch = [] then imp.closed r.stats
      -- At the end of the file, a call to cancel is not looked for.
      else imp.wrote.closed (r.writeBatch inStore).stats

def isDone (imp : Import) : Bool :=
  imp.reading = none && (imp.files = [] || imp.total.cancelled)

end Import

abbrev ImportId := Nat

-- A call, and the task that it starts.
inductive Task
  | rereading (meta_ : ArchiveMeta) -- A re-import that has read the details.
  | starting (copy : ArchiveMeta) (files : List (List Item))
  | running (imp : Import)

structure World where
  details    : Option ArchiveMeta := none
  registered : Option ImportId := none      -- The import whose flag is kept for the account.
  tasks      : ImportId → Option Task := fun _ => none
  given      : Option String := none        -- The name that was last given.

inductive Action
  | startImport (i : ImportId) (path name : String) (myAddresses : List String) (files : List (List Item))
  | reimportArchive (i : ImportId)
  | restart (i : ImportId) (files : List (List Item))
  | register (i : ImportId)
  | refuse (i : ImportId) -- The files are missing, or the store cannot be opened.
  | next (i : ImportId) (inStore : List String)
  | finish (i : ImportId) (totalBytes : Nat) (now : Millis)
  | fail (i : ImportId)
  | renameAccount (name : String)
  | cancelImport

-- The name that an account is listed by.
def startName (name : String) : String :=
  if trim name = "" then "Imported mail" else trim name

namespace World

def put (w : World) (i : ImportId) (t : Option Task) : World :=
  { w with tasks := Function.update w.tasks i t }

-- The details are written with what the call gives; the import takes a copy of them.
def begin_ (w : World) (i : ImportId) (path name : String) (myAddresses : List String) (files : List (List Item)) :
    World :=
  let stored := w.details.getD
    { kind := "archive", name, sourcePath := path, importedAt := 0, messages := 0, bytes := 0, myAddresses }
  let copy := { stored with
    name
    sourcePath  := path
    myAddresses := if myAddresses = [] then stored.myAddresses else myAddresses }
  { w.put i (some (.starting copy files)) with details := some copy }

-- `rename_account` refuses an empty name, one that is too long, and an account without details.
def rename (w : World) (name : String) : World :=
  let name := cleanText name
  if name = "" ∨ 100 < name.length then w
  else
    match w.details with
    | none       => w
    | some meta_ => { w with details := some { meta_ with name }, given := some name }

def cancel (w : World) : World :=
  { w with
    tasks := fun i => (w.tasks i).map fun
      | .running imp => .running { imp with
          cancel := imp.cancel || w.registered = some i
          found  := some (imp.found.getD 0) }
      | task => task }

def step (w : World) : Action → Option World
  | .startImport i path name myAddresses files =>
    match w.tasks i with
    | none => some { w.begin_ i path (startName name) myAddresses files with given := some (startName name) }
    | _    => none
  | .reimportArchive i =>
    match w.tasks i, w.details with
    | none, some meta_ => some (w.put i (some (.rereading meta_)))
    | _, _             => none
  | .restart i files =>
    match w.tasks i with
    | some (.rereading meta_) => some (w.begin_ i meta_.sourcePath (startName meta_.name) [] files)
    | _                       => none
  | .register i =>
    match w.tasks i with
    | some (.starting copy files) => some { w.put i (some (.running { copy, files })) with registered := some i }
    | _                           => none
  | .refuse i =>
    match w.tasks i with
    | some (.rereading _) => some (w.put i none)
    | some (.starting ..) => some (w.put i none)
    | _                   => none
  | .next i inStore =>
    match w.tasks i with
    | some (.running imp) => if imp.isDone then none else some (w.put i (some (.running (imp.next inStore))))
    | _                   => none
  | .finish i totalBytes now =>
    match w.tasks i with
    | some (.running imp) =>
      if imp.isDone then
        -- The entry for the account goes, whichever import it is of, and the copy is written back.
        some { w.put i none with
          registered := none
          details    := some { imp.copy with importedAt := now, messages := imp.total.imported, bytes := totalBytes } }
      else none
    | _ => none
  | .fail i =>
    match w.tasks i with
    | some (.running _) => some { w.put i none with registered := none }
    | _                 => none
  | .renameAccount name => some (w.rename name)
  | .cancelImport       => some w.cancel

def imports (w : World) (i : ImportId) : Option Import :=
  match w.tasks i with
  | some (.running imp) => some imp
  | _                   => none

def rereads (w : World) (i : ImportId) : Option ArchiveMeta :=
  match w.tasks i with
  | some (.rereading meta_) => some meta_
  | _                       => none

end World

def account : System World Action where
  Start w := w = {}
  step    := World.step

section Conditions

def hasMessage (file : List Item) : Bool :=
  file.any fun
    | .message _  => true
    | .unreadable => false

namespace Import

-- The next turn writes the shorter batch at a file's end.
def atLastBatch (imp : Import) : Bool :=
  imp.reading.any fun r => r.rest = [] && r.batch ≠ []

-- It has stopped, or nothing is left to be written.
def ended (imp : Import) : Bool :=
  imp.reading = none && imp.total.cancelled ||
    (imp.reading.all fun r => r.batch = [] && !hasMessage r.rest) && imp.files.all (!hasMessage ·)

end Import

-- No other name is given while an import runs or a re-import waits, no import begins while another one runs, and one that
-- is to stop has no further file with messages when it comes to a file's last batch.
def Careful (w : World) : Action → Prop
  | .restart i _  => (w.rereads i).all fun meta_ => w.given = some meta_.name
  | .register _   => w.registered = none
  | .next i _     => (w.imports i).all fun imp => imp.found = none || !imp.atLastBatch || imp.files.all (!hasMessage ·)
  | .finish i _ _ => (w.imports i).all fun imp => w.given = some imp.copy.name
  | _             => True

instance (w : World) : (a : Action) → Decidable (Careful w a)
  | .restart ..      => inferInstanceAs (Decidable (_ = true))
  | .register _      => inferInstanceAs (Decidable (w.registered = none))
  | .next ..         => inferInstanceAs (Decidable (_ = true))
  | .finish ..       => inferInstanceAs (Decidable (_ = true))
  | .startImport ..  => inferInstanceAs (Decidable True)
  | .reimportArchive _ => inferInstanceAs (Decidable True)
  | .refuse _        => inferInstanceAs (Decidable True)
  | .fail _          => inferInstanceAs (Decidable True)
  | .renameAccount _ => inferInstanceAs (Decidable True)
  | .cancelImport    => inferInstanceAs (Decidable True)

-- The details carry the name last given, an import that was to be cancelled writes one more batch at most, and each one
-- that runs can be cancelled.
structure Right (w : World) : Prop where
  named       : w.details.map (·.name) = w.given
  stops       : w.tasks i = some (.running imp) → imp.found = some n → n = 0 ∨ n = 1 ∧ imp.ended = true
  cancellable : w.tasks i = some (.running imp) → w.registered = some i

end Conditions

section Names

theorem startName_idem (name : String) : startName (startName name) = startName name := by
  rw [startName, startName]
  split
  case isTrue  => decide +kernel
  case isFalse visible => rw [trim_trim, if_neg visible]

theorem startName_cleanText (ne : cleanText name ≠ "") : startName (cleanText name) = cleanText name := by
  rw [startName, trim_cleanText, if_neg ne]

end Names

namespace Import

-- An import that a call to cancel has found running stops with the next batch.
structure Stops (imp : Import) : Prop where
  told : imp.found ≠ none → imp.cancel = true
  soon : imp.found = some n → n = 0 ∨ n = 1 ∧ imp.ended = true

variable {imp : Import}

theorem Stops.of_found (told : imp.found ≠ none → imp.cancel = true)
    (h : imp.found = none ∨ imp.found = some 0 ∨ imp.found = some 1 ∧ imp.ended = true) : imp.Stops where
  told := told
  soon eq := by
    rcases h with none_ | zero | ⟨one, ended⟩
    · exact nomatch none_.symm.trans eq
    · exact .inl (Option.some.inj (eq.symm.trans zero))
    · exact .inr ⟨Option.some.inj (eq.symm.trans one), ended⟩

theorem Stops.found (h : imp.Stops) :
    imp.found = none ∨ imp.found = some 0 ∨ imp.found = some 1 ∧ imp.ended = true := by
  cases eq : imp.found
  case none => exact .inl rfl
  case some n =>
    rcases h.soon eq with rfl | ⟨rfl, ended⟩
    case inl => exact .inr (.inl rfl)
    case inr => exact .inr (.inr ⟨rfl, ended⟩)

-- A file is open.
theorem ended_open (reading : imp.reading = some r) :
    imp.ended = true ↔ r.batch = [] ∧ hasMessage r.rest = false ∧ ∀ file ∈ imp.files, hasMessage file = false := by
  simp [Import.ended, reading, and_assoc]

-- No file is open.
theorem ended_shut (reading : imp.reading = none) :
    imp.ended = true ↔ imp.total.cancelled = true ∨ ∀ file ∈ imp.files, hasMessage file = false := by
  simp [Import.ended, reading]

theorem hasMessage_cons : hasMessage (item :: rest) = false ↔ item = .unreadable ∧ hasMessage rest = false := by
  cases item <;> simp [hasMessage]

-- Opening the next file.
theorem Stops.opened (h : imp.Stops) (reading : imp.reading = none) (eq : imp.files = file :: later)
    (running : imp.isDone = false) : { imp with files := later, reading := some { rest := file } }.Stops := by
  have go_on : imp.total.cancelled ≠ true := by
    rw [isDone, reading] at running
    exact Bool.eq_false_iff.mp (Bool.or_eq_false_iff.mp running).right
  refine .of_found h.told (h.found.imp id (.imp id fun ⟨one, ended⟩ => ⟨one, ?_⟩))
  have none_left := ((ended_shut reading).mp ended).resolve_left go_on
  rw [eq, List.forall_mem_cons] at none_left
  exact (ended_open rfl).mpr ⟨rfl, none_left⟩

-- A turn with an item of the file.
theorem Stops.took (h : imp.Stops) (reading : imp.reading = some r) (eq : r.rest = item :: rest) :
    { imp with reading := some ({ r with rest }.take item) }.Stops := by
  refine .of_found h.told (h.found.imp id (.imp id fun ⟨one, ended⟩ => ⟨one, ?_⟩))
  have ⟨empty, left, later⟩ := (ended_open reading).mp ended
  have ⟨item_eq, left⟩ := hasMessage_cons.mp (eq ▸ left)
  rw [item_eq]
  refine (ended_open rfl).mpr ⟨?_, ?_, later⟩
  · exact empty
  · exact left

-- A turn that writes a batch.
theorem Stops.wrote {imp' : Import} (h : imp.Stops) (told : imp'.cancel = imp.cancel)
    (counted : imp'.found = imp.found.map (· + 1)) (last : imp.found = some 0 → imp'.ended = true)
    (more : imp.ended ≠ true) : imp'.Stops := by
  refine .of_found (fun found => ?_) ?_
  · rw [told]
    refine h.told fun none_ => found ?_
    rw [counted, none_]
    rfl
  · rcases h.found with none_ | zero | ⟨_, ended⟩
    · exact .inl (by rw [counted, none_]; rfl)
    · exact .inr (.inr ⟨by rw [counted, zero]; rfl, last zero⟩)
    · exact absurd ended more

theorem Stops.next (h : imp.Stops) (running : imp.isDone = false)
    (careful : (imp.found = none || !imp.atLastBatch || imp.files.all (!hasMessage ·)) = true) :
    (imp.next inStore).Stops := by
  cases reading : imp.reading
  case none =>
    cases eq : imp.files
    case nil            => simp [isDone, reading, eq] at running
    case cons file later =>
      simp only [Import.next, reading, eq]
      exact h.opened reading eq running
  case some r =>
    cases eq : r.rest
    case nil =>
      simp only [Import.next, reading, eq]
      split
      case isTrue empty =>
        refine .of_found h.told (h.found.imp id (.imp id fun ⟨one, ended⟩ => ⟨one, ?_⟩))
        have ⟨_, _, later⟩ := (ended_open reading).mp ended
        exact (ended_shut rfl).mpr (.inr later)
      case isFalse some_ =>
        refine h.wrote rfl rfl (fun zero => ?_) fun ended => some_ ((ended_open reading).mp ended).left
        have last : imp.atLastBatch = true := by simp [atLastBatch, reading, eq, some_]
        have later : ∀ file ∈ imp.files, hasMessage file = false := by simpa [zero, last] using careful
        exact (ended_shut rfl).mpr (.inr later)
    case cons item rest =>
      simp only [Import.next, reading, eq]
      split
      case isFalse => exact h.took reading eq
      case isTrue full =>
        have more : imp.ended ≠ true := fun ended => by
          have ⟨empty, left, _⟩ := (ended_open reading).mp ended
          have ⟨item_eq, _⟩ := hasMessage_cons.mp (eq ▸ left)
          rw [item_eq] at full
          simp [Reader.take, empty, IMPORT_BATCH] at full
        split
        case isTrue =>
          refine h.wrote rfl rfl (fun _ => (ended_shut rfl).mpr (.inl ?_)) more
          exact Bool.or_true _
        case isFalse go_on =>
          exact h.wrote rfl rfl (fun zero => absurd (h.told (by rw [zero]; exact nofun)) go_on) more

end Import

namespace World

structure Kept (w : World) : Prop where
  named       : w.details.map (·.name) = w.given
  valid       : w.given = some name → startName name = name
  stops       : w.tasks i = some (.running imp) → imp.Stops
  cancellable : w.tasks i = some (.running imp) → w.registered = some i

variable {w w' : World}

@[simp] theorem tasks_put : (w.put i t).tasks j = if j = i then t else w.tasks j :=
  Function.update_apply ..

theorem Kept.right (h : w.Kept) : Right w where
  named       := h.named
  stops       := fun running found => (h.stops running).soon found
  cancellable := h.cancellable

-- A task that does not run takes another's place, or none.
theorem Kept.put (h : w.Kept) (idle : ∀ imp, t ≠ some (.running imp)) : (w.put i t).Kept where
  named       := h.named
  valid       := h.valid
  stops run   := by
    rw [tasks_put] at run
    split at run
    case isTrue  => exact absurd run (idle _)
    case isFalse => exact h.stops run
  cancellable run := by
    rw [tasks_put] at run
    split at run
    case isTrue  => exact absurd run (idle _)
    case isFalse => exact h.cancellable run

-- The details are written with a name that is, or becomes, the one last given.
theorem Kept.named_as (h : w.Kept) (meta_ : ArchiveMeta) (valid : startName meta_.name = meta_.name) :
    { w with details := some meta_, given := some meta_.name }.Kept where
  named       := rfl
  valid eq    := Option.some.inj eq ▸ valid
  stops       := h.stops
  cancellable := h.cancellable

theorem Kept.begin_ (h : w.Kept) (i : ImportId) (path : String) (myAddresses : List String) (files : List (List Item))
    (valid : startName name = name) : { w.begin_ i path name myAddresses files with given := some name }.Kept :=
  (h.put (by simp)).named_as _ valid

theorem Kept.rename (h : w.Kept) : (w.rename name).Kept := by
  rw [World.rename]
  split
  case isTrue           => exact h
  case isFalse accepted =>
    have ⟨ne, _⟩ := not_or.mp accepted
    split
    case h_1 => exact h
    case h_2 => exact h.named_as _ (startName_cleanText ne)

-- An import starts to run when no other one does.
theorem Kept.register (h : w.Kept) (alone : w.registered = none) :
    { w.put i (some (.running { copy, files })) with registered := some i }.Kept where
  named := h.named
  valid := h.valid
  stops run := by
    rw [tasks_put] at run
    split at run
    case isTrue  => cases run; exact ⟨fun found => absurd rfl found, nofun⟩
    case isFalse => exact h.stops run
  cancellable run := by
    rw [tasks_put] at run
    split at run
    case isTrue same => rw [same]
    case isFalse     => exact nomatch alone.symm.trans (h.cancellable run)

theorem Kept.next (h : w.Kept) (run : w.tasks i = some (.running imp)) (running : imp.isDone = false)
    (careful : (imp.found = none || !imp.atLastBatch || imp.files.all (!hasMessage ·)) = true) :
    (w.put i (some (.running (imp.next inStore)))).Kept where
  named := h.named
  valid := h.valid
  stops run' := by
    rw [tasks_put] at run'
    split at run'
    case isTrue  => cases run'; exact (h.stops run).next running careful
    case isFalse => exact h.stops run'
  cancellable run' := by
    rw [tasks_put] at run'
    split at run'
    case isTrue same => rw [same]; exact h.cancellable run
    case isFalse     => exact h.cancellable run'

-- The only import that runs ends.
theorem Kept.removed (h : w.Kept) (run : w.tasks i = some (.running imp)) :
    { w.put i none with registered := none }.Kept where
  named := h.named
  valid := h.valid
  stops run' := by
    rw [tasks_put] at run'
    split at run'
    case isTrue  => exact nomatch run'
    case isFalse => exact h.stops run'
  cancellable run' := by
    rw [tasks_put] at run'
    split at run'
    case isTrue        => exact nomatch run'
    case isFalse other => exact absurd (Option.some.inj ((h.cancellable run').symm.trans (h.cancellable run))) other

theorem Kept.cancel (h : w.Kept) : w.cancel.Kept where
  named := h.named
  valid := h.valid
  stops run := by
    have ⟨t, get, eq⟩ := Option.map_eq_some_iff.mp run
    cases t
    case running imp =>
      cases eq
      have stops := h.stops get
      refine ⟨fun _ => ?_, fun eq => ?_⟩
      · simp [h.cancellable get]
      · cases found : imp.found
        case none   => exact .inl (by rw [found] at eq; exact (Option.some.inj eq).symm)
        case some n => exact stops.soon (found.trans (by rw [found] at eq; exact eq))
    all_goals cases eq
  cancellable run := by
    have ⟨t, get, eq⟩ := Option.map_eq_some_iff.mp run
    cases t
    case running imp => exact h.cancellable get
    all_goals cases eq

theorem Kept.step (h : w.Kept) (careful : Careful w a) (hs : w.step a = some w') : w'.Kept := by
  cases a
  case startImport i path name myAddresses files =>
    simp only [World.step] at hs
    split at hs
    case h_1 => cases hs; exact h.begin_ i path myAddresses files (startName_idem name)
    case h_2 => cases hs
  case reimportArchive i =>
    simp only [World.step] at hs
    split at hs
    case h_1 => cases hs; exact h.put (by simp)
    case h_2 => cases hs
  case restart i files =>
    simp only [World.step] at hs
    split at hs
    case h_2 => cases hs
    case h_1 meta_ get =>
      cases hs
      have same : w.given = some meta_.name := by simpa [Careful, rereads, get] using careful
      have valid := h.valid same
      rw [valid]
      have kept := h.begin_ i meta_.sourcePath [] files valid
      rwa [← same] at kept
  case register i =>
    simp only [World.step] at hs
    split at hs
    case h_1 => cases hs; exact h.register careful
    case h_2 => cases hs
  case refuse i =>
    simp only [World.step] at hs
    split at hs
    case h_1 => cases hs; exact h.put (by simp)
    case h_2 => cases hs; exact h.put (by simp)
    case h_3 => cases hs
  case next i inStore =>
    simp only [World.step] at hs
    split at hs
    case h_2 => cases hs
    case h_1 imp get =>
      split at hs
      case isTrue => cases hs
      case isFalse running =>
        cases hs
        exact h.next get (Bool.eq_false_of_not_eq_true running) (by simpa [Careful, imports, get] using careful)
  case finish i totalBytes now =>
    simp only [World.step] at hs
    split at hs
    case h_2 => cases hs
    case h_1 imp get =>
      split at hs
      case isFalse => cases hs
      case isTrue =>
        cases hs
        have same : w.given = some imp.copy.name := by simpa [Careful, imports, get] using careful
        have kept := (h.removed get).named_as { imp.copy with
          importedAt := now, messages := imp.total.imported, bytes := totalBytes } (h.valid same)
        rwa [← same] at kept
  case fail i =>
    simp only [World.step] at hs
    split at hs
    case h_1 get => cases hs; exact h.removed get
    case h_2     => cases hs
  case renameAccount name => cases hs; exact h.rename
  case cancelImport       => cases hs; exact h.cancel

-- As long as the calls keep out of each other's way, the account has the name last given, and cancelling works.
theorem reachable_named (h : account.Reachable Careful w) : Right w := by
  suffices w.Kept from this.right
  refine h.invariant (fun w start => ?_) fun _ _ _ kept careful step => kept.step careful step
  rw [start]
  exact ⟨rfl, nofun, nofun, nofun⟩

-- An import that is cancelled, a new name, and the import once more.
def again : List Action :=
  [.startImport 0 "/mail.mbox" " Mail " [] [[.message "a"], [.unreadable]], .register 0, .next 0 [], .next 0 [],
    .cancelImport, .next 0 [], .next 0 [], .next 0 [], .next 0 [], .finish 0 7 1, .renameAccount "Old  mail",
    .reimportArchive 1, .restart 1 [], .register 1, .finish 1 0 2]

theorem again_right :
    ∃ w, account.run Careful {} again = some w ∧ w.details.map (·.name) = some "Old mail" ∧ Right w := by
  have name : (account.run Careful {} again).map (·.details.map (·.name)) = some (some "Old mail") := by decide +kernel
  have ⟨w, hs, eq⟩ := Option.map_eq_some_iff.mp name
  exact ⟨w, hs, eq, reachable_named (.run (.start rfl) hs)⟩

def anyhow (_ : World) (_ : Action) : Prop := True

instance (w : World) (a : Action) : Decidable (anyhow w a) :=
  inferInstanceAs (Decidable True)

-- A name given during an import is lost with the import's end; of two imports at once one cannot be cancelled, and after
-- its end the other neither; and an import of small files goes on after it is cancelled.
theorem imports_wrong :
    (account.run anyhow {} [.startImport 0 "/mail.mbox" "Old" [] [], .register 0, .renameAccount "New", .finish 0 0 1]).map
      (fun w => ((w.tasks 0).isNone, w.details.map (·.name), w.given)) = some (true, some "Old", some "New") ∧
    (account.run anyhow {} [.startImport 0 "/mail.mbox" "Mail" [] [], .startImport 1 "/mail.mbox" "Mail" [] [[]],
      .register 0, .register 1, .finish 0 0 1, .cancelImport]).map
        (fun w => (w.registered, (w.imports 1).map (·.cancel))) = some (none, some false) ∧
    (account.run anyhow {} [.startImport 0 "/mail" "Mail" [] [[.message "a"], [.message "b"]], .register 0, .next 0 [],
      .cancelImport, .next 0 [], .next 0 [], .next 0 [], .next 0 [], .next 0 []]).map
        (fun w => (w.imports 0).map fun imp => (imp.cancel, imp.found, imp.total.cancelled)) =
      some (some (true, some 2, false)) := by
  decide +kernel

end World

end Kaluta.Archive
