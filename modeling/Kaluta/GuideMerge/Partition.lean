import Kaluta.GuideMerge.Plan

-- Each entry of either guide has one place in a plan.
namespace Kaluta.GuideMerge

open Guide (Unicode norm EntryId EntryRow Fields Edit Editing Db)

section Splits

variable {mine : List EntryRow} {e : Fields} {cs : List Conflict}

-- What a split still has to be asked about, or adds.
def Split.entries (s : Split) : List Fields :=
  s.additions ++ s.conflicts.flatMap (·.incoming)

theorem addConflict_incoming (e : Fields) (here : List EntryRow) (cs : List Conflict) :
    ((addConflict e here cs).flatMap (·.incoming)).Perm (e :: cs.flatMap (·.incoming)) := by
  induction cs
  case nil          => exact .refl _
  case cons c cs ih =>
    rw [addConflict]
    split
    · simp only [List.flatMap_cons, List.append_assoc]
      exact List.perm_middle
    · rw [List.flatMap_cons, List.flatMap_cons]
      exact (ih.append_left _).trans List.perm_middle

theorem splitOne_entries [Unicode] {s : Split} (h : mine.any (same e) = false) :
    (splitOne mine s e).entries.Perm (e :: s.entries) ∧ (splitOne mine s e).identical = s.identical := by
  simp only [splitOne, h, Bool.false_eq_true, if_false]
  split
  · refine ⟨?_, rfl⟩
    simp only [Split.entries, List.append_assoc]
    exact List.perm_middle
  · refine ⟨?_, rfl⟩
    simp only [Split.entries]
    exact ((addConflict_incoming e _ _).append_left _).trans List.perm_middle

-- Each incoming entry is the same as one of this account's, added, or in a conflict.
theorem split_entries [Unicode] (mine : List EntryRow) (incoming : List Fields) :
    incoming.Perm (incoming.filter (fun e => mine.any (same e)) ++ (split mine incoming).entries) ∧
      (split mine incoming).identical = (incoming.filter fun e => mine.any (same e)).length := by
  suffices ∀ s : Split, (incoming ++ s.entries).Perm
        (incoming.filter (fun e => mine.any (same e)) ++ (incoming.foldl (splitOne mine) s).entries) ∧
      (incoming.foldl (splitOne mine) s).identical =
        s.identical + (incoming.filter fun e => mine.any (same e)).length by
    have ⟨perm, identical⟩ := this {}
    exact ⟨(List.append_nil incoming ▸ perm :), (Nat.zero_add _ ▸ identical :)⟩
  induction incoming
  case nil => exact fun s => ⟨.refl _, rfl⟩
  case cons e incoming ih =>
    intro s
    rw [List.foldl_cons]
    have ⟨perm, identical⟩ := ih (splitOne mine s e)
    cases h : mine.any (same e)
    case true =>
      have one : splitOne mine s e = { s with identical := s.identical + 1 } := by simp [splitOne, h]
      rw [one] at perm identical ⊢
      simp only [List.filter_cons, h, if_true, List.cons_append, identical, List.length_cons]
      exact ⟨perm.cons e, by omega⟩
    case false =>
      have ⟨entries, same⟩ := splitOne_entries (s := s) h
      simp only [List.filter_cons, h, Bool.false_eq_true, if_false]
      exact ⟨(List.perm_middle.symm.trans (entries.symm.append_left incoming)).trans perm, identical.trans (same ▸ rfl)⟩

-- A conflict has all of this account's entries of its category, and no two have the same.
def Apart (mine : List EntryRow) (cs : List Conflict) : Prop :=
  (cs.map (·.category)).Nodup ∧ ∀ c ∈ cs, c.mine = mine.filter (·.category = c.category)

theorem Apart.addConflict (h : Apart mine cs) :
    Apart mine (addConflict e (mine.filter (·.category = e.category)) cs) ∧
      ∀ category ∈ (addConflict e (mine.filter (·.category = e.category)) cs).map (·.category),
        category = e.category ∨ category ∈ cs.map (·.category) := by
  induction cs
  case nil =>
    refine ⟨⟨List.nodup_singleton _, fun c mem => ?_⟩, by simp [GuideMerge.addConflict]⟩
    cases List.mem_singleton.mp mem
    rfl
  case cons c cs ih =>
    have ⟨⟨new, nodup⟩, own, others⟩ : (c.category ∉ cs.map (·.category) ∧ (cs.map (·.category)).Nodup) ∧ _ ∧ _ :=
      ⟨List.nodup_cons.mp h.left, List.forall_mem_cons.mp h.right⟩
    have ⟨⟨nodup', own'⟩, names⟩ := ih ⟨nodup, others⟩
    rw [GuideMerge.addConflict]
    split
    case isTrue => exact ⟨⟨h.left, List.forall_mem_cons.mpr ⟨own, others⟩⟩, fun _ => .inr⟩
    case isFalse ne =>
      refine ⟨⟨List.nodup_cons.mpr ⟨fun mem => ?_, nodup'⟩, List.forall_mem_cons.mpr ⟨own, own'⟩⟩, ?_⟩
      · exact (names _ mem).elim ne new
      · rw [List.map_cons, List.map_cons, List.forall_mem_cons]
        exact ⟨.inr List.mem_cons_self, fun category mem => (names category mem).imp_right (List.mem_cons_of_mem _)⟩

theorem split_apart [Unicode] (mine : List EntryRow) (incoming : List Fields) :
    Apart mine (split mine incoming).conflicts := by
  refine List.foldl_preserves (P := fun s : Split => Apart mine s.conflicts) ?_ ⟨List.nodup_nil, nofun⟩
  intro s e _ apart
  rw [splitOne]
  split
  · exact apart
  · simp only
    split
    · exact apart
    · exact apart.addConflict.left

-- No entry of this account is in two conflicts.
theorem Apart.nodup (h : Apart mine cs) (ids : (mine.map (·.id)).Nodup) :
    ((cs.flatMap (·.mine)).map (·.id)).Nodup ∧ ∀ m ∈ cs.flatMap (·.mine), m ∈ mine := by
  have parts (c) (mem : c ∈ cs) : ∀ m ∈ c.mine, m ∈ mine ∧ m.category = c.category := fun m own => by
    rw [h.right c mem] at own
    simpa using own
  refine ⟨?_, fun m mem => ?_⟩
  · rw [List.map_flatMap, List.nodup_flatMap]
    refine ⟨fun c mem => ?_, ?_⟩
    · rw [h.right c mem]
      exact ids.sublist (List.filter_sublist.map _)
    · refine (List.pairwise_map.mp h.left).imp_of_mem fun {c d} memC memD ne id idC idD => ?_
      have ⟨m, mMem, mId⟩ := List.mem_map.mp idC
      have ⟨n, nMem, nId⟩ := List.mem_map.mp idD
      have ⟨⟨mMine, mCat⟩, nMine, nCat⟩ := And.intro (parts c memC m mMem) (parts d memD n nMem)
      have : m = n := List.inj_on_of_nodup_map ids mMine nMine (mId.trans nId.symm)
      exact ne (mCat.symm.trans (this ▸ nCat))
  · have ⟨c, memC, own⟩ := List.mem_flatMap.mp mem
    exact (parts c memC m own).left

end Splits

section Parsed

-- The positions of `all` that are used, in the order of their use.
def Used (all : List Fields) (used : List Nat) : Prop :=
  used.Nodup ∧ ∀ i ∈ used, i < all.length

def pick (all : List Fields) (used : List Nat) : List Fields :=
  used.reverse.filterMap (all[·]?)

theorem takeIncoming_used {all : List Fields} {used : List Nat} (h : Used all used) (is : List Int) :
    Used all (takeIncoming all used is).2 ∧
      pick all (takeIncoming all used is).2 = pick all used ++ (takeIncoming all used is).1 := by
  induction is generalizing used
  case nil          => exact ⟨h, (List.append_nil _).symm⟩
  case cons i is ih =>
    rw [takeIncoming]
    split
    case isFalse => exact ih h
    case isTrue new =>
      have ⟨used', picked⟩ := @ih (i.toNat :: used)
        ⟨List.nodup_cons.mpr ⟨new.right.right, h.left⟩, List.forall_mem_cons.mpr ⟨new.right.left, h.right⟩⟩
      refine ⟨used', picked.trans ?_⟩
      have here : all[i.toNat]? = some (all.get ⟨i.toNat, new.right.left⟩) := List.getElem?_eq_getElem new.right.left
      simp [pick, here]

theorem takeMine_used {all : List EntryRow} {used : List EntryId} (h : used.Nodup) (ids : List Int) :
    (takeMine all used ids).2.Nodup ∧
      (takeMine all used ids).2.reverse = used.reverse ++ (takeMine all used ids).1.map (·.id) ∧
      ∀ m ∈ (takeMine all used ids).1, m ∈ all := by
  induction ids generalizing used
  case nil            => exact ⟨h, (List.append_nil _).symm, fun _ h => absurd h List.not_mem_nil⟩
  case cons id ids ih =>
    rw [takeMine]
    split
    case h_1 => exact ih h
    case h_2 m found =>
      split
      case isTrue => exact ih h
      case isFalse new =>
        have ⟨nodup, named, own⟩ := @ih (m.id :: used) (List.nodup_cons.mpr ⟨new, h⟩)
        refine ⟨nodup, named.trans (by simp), List.forall_mem_cons.mpr ⟨?_, own⟩⟩
        exact List.mem_of_find?_eq_some found

-- The used positions and the others are all positions.
theorem pick_unused {all : List Fields} {used : List Nat} (h : Used all used) :
    (pick all used ++ unused 0 used all).Perm all := by
  have pairs :
      (used.reverse.filterMap (fun i => all[i]?.map (·, i)) ++ all.zipIdx.filter (·.2 ∉ used)).Perm all.zipIdx := by
    have nodup : all.zipIdx.Nodup := .of_map (·.2) (by rw [List.zipIdx_map_snd]; exact List.nodup_range')
    refine (List.perm_ext_iff_of_nodup (List.nodup_append.mpr ⟨?_, nodup.filter _, ?_⟩) nodup).mpr ?_
    · refine (List.nodup_reverse.mpr h.left).filterMap fun i j x => ?_
      simp only [Option.mem_def, Option.map_eq_some_iff]
      rintro ⟨_, _, rfl⟩ ⟨_, _, eq⟩
      exact (congrArg Prod.snd eq).symm
    · rintro ⟨a, i⟩ left ⟨b, j⟩ right eq
      cases eq
      simp at left right
      grind
    · rintro ⟨a, i⟩
      simp only [List.mem_append, List.mem_filterMap, List.mem_filter, List.mem_zipIdx_iff_getElem?]
      simp
      grind
  have firsts := pairs.map Prod.fst
  rw [List.map_append, List.map_filterMap, List.zipIdx_map_fst] at firsts
  simpa [Function.comp_def, pick, unused] using firsts

variable {mineAll : List EntryRow} {incomingAll : List Fields} {r : Reading}

-- What the decisions read so far have is what they used.
structure Reading.Sound (mineAll : List EntryRow) (incomingAll : List Fields) (r : Reading) : Prop where
  nodup : r.usedMine.Nodup
  mine  : ((r.out.flatMap (·.mine)).map (·.id)).Sublist r.usedMine.reverse
  own   : ∀ m ∈ r.out.flatMap (·.mine), m ∈ mineAll
  used  : Used incomingAll r.usedIncoming
  taken : r.out.flatMap (·.incoming) = pick incomingAll r.usedIncoming

theorem Reading.Sound.readOne (h : r.Sound mineAll incomingAll) (d : Value) :
    (readOne mineAll incomingAll r d).Sound mineAll incomingAll := by
  obtain ⟨ids, eq⟩ : ∃ ids : String → List Int,
      ∀ key, ((d.get key).elim [] fun v => v.asArray.filterMap Value.asI64) = ids key := ⟨_, fun _ => rfl⟩
  have ⟨nodup, named, own⟩ := @takeMine_used mineAll _ h.nodup (ids "mine")
  have ⟨used, picked⟩ := takeIncoming_used h.used (ids "incoming")
  simp only [GuideMerge.readOne, eq]
  split
  case isTrue none' =>
    refine ⟨nodup, h.mine.trans ?_, h.own, used, ?_⟩
    · exact named ▸ List.sublist_append_left _ _
    · rw [picked, List.isEmpty_iff.mp none', List.append_nil, h.taken]
  case isFalse =>
    refine ⟨nodup, ?_, ?_, used, ?_⟩
    · simp only [List.flatMap_append, List.flatMap_cons, List.flatMap_nil, List.append_nil, List.map_append, named]
      exact h.mine.append (.refl _)
    · simp only [List.flatMap_append, List.flatMap_cons, List.flatMap_nil, List.append_nil, List.mem_append]
      exact fun m => Or.rec (h.own m) (own m)
    · simp only [List.flatMap_append, List.flatMap_cons, List.flatMap_nil, List.append_nil, h.taken, picked]

theorem rest_incoming (r : Reading) (offset : Nat) (cs : List Conflict) :
    (rest r offset cs).flatMap (·.incoming) = unused offset r.usedIncoming (cs.flatMap (·.incoming)) := by
  induction cs generalizing offset
  case nil          => rfl
  case cons c cs ih =>
    have split : unused offset r.usedIncoming (c.incoming ++ cs.flatMap (·.incoming)) =
        unused offset r.usedIncoming c.incoming ++
          unused (offset + c.incoming.length) r.usedIncoming (cs.flatMap (·.incoming)) := by
      simp [unused, List.zipIdx_append]
    simp only [rest, List.flatMap_cons, split]
    split
    case isTrue none' => rw [List.isEmpty_iff.mp none', List.nil_append, ih]
    case isFalse      => rw [List.flatMap_cons, ih]

theorem rest_mine (r : Reading) (offset : Nat) (cs : List Conflict) :
    ((rest r offset cs).flatMap (·.mine)).Sublist ((cs.flatMap (·.mine)).filter (·.id ∉ r.usedMine)) := by
  induction cs generalizing offset
  case nil          => exact .refl _
  case cons c cs ih =>
    simp only [rest, List.flatMap_cons, List.filter_append]
    split
    case isTrue  => exact (ih _).trans (List.sublist_append_right _ _)
    case isFalse => exact (List.Sublist.refl _).append (ih _)

theorem fallback_flatMap (categoryName : String → String) (cs : List Conflict) :
    (fallback categoryName cs).flatMap (·.incoming) = cs.flatMap (·.incoming) ∧
      (fallback categoryName cs).flatMap (·.mine) = cs.flatMap (·.mine) :=
  ⟨List.flatMap_map .., List.flatMap_map ..⟩

-- Decisions that have what a list of conflicts has.
structure Decides (cs : List Conflict) (decisions : List Decision) : Prop where
  incoming : (decisions.flatMap (·.incoming)).Perm (cs.flatMap (·.incoming))
  nodup    : ((decisions.flatMap (·.mine)).map (·.id)).Nodup
  own      : ∀ m ∈ decisions.flatMap (·.mine), m ∈ cs.flatMap (·.mine)

theorem fallback_decides {cs : List Conflict} (ids : ((cs.flatMap (·.mine)).map (·.id)).Nodup)
    (categoryName : String → String) : Decides cs (fallback categoryName cs) := by
  have ⟨incoming, mine⟩ := fallback_flatMap categoryName cs
  exact ⟨incoming ▸ .refl _, mine ▸ ids, fun m mem => mine ▸ mem⟩

-- Whatever the answer says, each entry is decided on once.
theorem parse_decides {cs : List Conflict} (ids : ((cs.flatMap (·.mine)).map (·.id)).Nodup)
    (categoryName : String → String) (value : Value) : Decides cs (parse categoryName value cs) := by
  simp only [parse]
  generalize (value.get "decisions").elim [] Value.asArray = ds
  have sound : (ds.foldl (readOne (cs.flatMap (·.mine)) (cs.flatMap (·.incoming))) {}).Sound
      (cs.flatMap (·.mine)) (cs.flatMap (·.incoming)) :=
    List.foldl_preserves (fun d _ sound => sound.readOne d)
      ⟨List.nodup_nil, .refl _, fun _ h => absurd h List.not_mem_nil,
        ⟨List.nodup_nil, fun _ h => absurd h List.not_mem_nil⟩, rfl⟩
  generalize ds.foldl _ _ = r at sound
  have ⟨incoming, mine⟩ := fallback_flatMap categoryName (rest r 0 cs)
  have left := rest_mine r 0 cs
  refine ⟨?_, ?_, ?_⟩
  · rw [List.flatMap_append, incoming, rest_incoming, sound.taken]
    exact pick_unused sound.used
  · rw [List.flatMap_append, mine, List.map_append, List.nodup_append]
    refine ⟨(List.nodup_reverse.mpr sound.nodup).sublist sound.mine, ?_, ?_⟩
    · exact (ids.sublist (List.filter_sublist.map _)).sublist (left.map _)
    · rintro id used _ other rfl
      have ⟨m, mem, eq⟩ := List.mem_map.mp other
      have := (List.mem_filter.mp (left.subset mem)).right
      have free : m.id ∉ r.usedMine := by simpa using this
      exact free (eq ▸ List.mem_reverse.mp (sound.mine.subset used))
  · rw [List.flatMap_append, mine]
    intro m mem
    rcases List.mem_append.mp mem with mem | mem
    · exact sound.own m mem
    · exact (List.mem_filter.mp (left.subset mem)).left

end Parsed

-- An edit leaves what it is not about.
theorem kept_edit {c c' : Editing} {edit : Edit} (h : c.edit now edit = .ok c') (there : row ∈ c.db.entries)
    (other : edit.target ≠ some row.id) : row ∈ c'.db.entries := by
  have touched (id) : (c.touch id).db = c.db := Editing.touch_db c id
  have written {id row'} (h : (c.touch id).db.getEntry id = some row') (ne : id ≠ row.id) (f : EntryRow → EntryRow)
      (hf : (f row').id = row'.id) : row ∈ ((c.touch id).db.writeEntry (f row')).entries := by
    have is : row'.id = id := (Table.find?_eq_some_iff.mp h).right
    rw [Db.writeEntry, Table.mem_update, touched id]
    exact .inl ⟨there, by simpa [hf, is] using ne.symm⟩
  cases edit
  case add =>
    obtain ⟨_, inserted, h⟩ := Except.bind_eq_ok.mp h
    cases h
    rw [Db.insertEntry] at inserted
    split at inserted
    case h_1      => cases inserted
    case h_2 _ ok =>
      cases inserted
      exact (Table.mem_insert? ok).mpr (.inl there)
  case update id fields =>
    obtain ⟨row', found, eq⟩ := Editing.rewrite_eq_ok h
    rw [eq]
    exact written found (fun is => other (congrArg some is))
      (fun row => { Guide.toRow fields row with updatedAt := now }) rfl
  case decide id status =>
    obtain ⟨row', found, eq⟩ := Editing.rewrite_eq_ok h
    rw [eq]
    exact written found (fun is => other (congrArg some is))
      ({ · with status, decidedAt := Editing.decidedAt status now, updatedAt := now }) rfl
  case delete id =>
    cases h
    refine Table.mem_delete.mpr ⟨touched id ▸ there, ?_⟩
    simpa using fun is => other (congrArg some is.symm)

theorem kept_applyEdits [Unicode] {db db' : Db} {edits : List Edit}
    (ok : db.applyEdits edits reason now = .ok (db', change)) (there : row ∈ db.entries)
    (other : ∀ edit ∈ edits, edit.target ≠ some row.id) :
    row ∈ db'.entries := by
  have ⟨_, checked, c, hc, edited, entries⟩ := Guide.applyEdits_eq_ok ok
  rw [entries]
  refine List.foldlM_preserves (P := fun c : Editing => row ∈ c.db.entries) edited (fun edit mem there ok => ?_) there
  refine kept_edit ok there fun is => ?_
  have mem : some row.id ∈ edits.map Edit.target := Guide.targets_checked hc ▸ is ▸ List.mem_map_of_mem mem
  have ⟨edit', mem', is'⟩ := List.mem_map.mp mem
  exact other edit' mem' is'

-- A merge adds, and removes nothing but what a decision has.
theorem target_edits {plan : Plan} {origin : String} {skipped : Nat → Bool} {choices : Nat → Option Choice}
    (mem : edit ∈ edits plan origin skipped choices) :
    edit.target = none ∨ ∃ d ∈ plan.decisions, ∃ m ∈ d.mine, edit.target = some m.id := by
  rcases List.mem_append.mp mem with mem | mem
  · have ⟨_, _, eq⟩ := List.mem_map.mp mem
    exact .inl (eq ▸ rfl)
  · have ⟨⟨d, i⟩, memD, mem⟩ := List.mem_flatMap.mp mem
    have memD : d ∈ plan.decisions := List.mem_of_getElem? (List.mk_mem_zipIdx_iff_getElem?.mp memD)
    dsimp only at mem
    split at mem
    case h_1 =>
      rcases List.mem_append.mp mem with mem | mem
      · have ⟨m, memM, eq⟩ := List.mem_map.mp mem
        exact .inr ⟨d, memD, m, memM, eq ▸ rfl⟩
      · have ⟨_, _, eq⟩ := List.mem_map.mp mem
        exact .inl (eq ▸ rfl)
    case h_2 =>
      have ⟨_, _, eq⟩ := List.mem_map.mp mem
      exact .inl (eq ▸ rfl)
    case h_3 => cases mem
    case h_4 => cases mem

theorem plan_decides [Unicode] (categoryName : String → String) {mine : List EntryRow} (ids : (mine.map (·.id)).Nodup)
    (incoming : List Fields) (answer : Option Value) :
    Decides (split mine incoming).conflicts (planGuideMerge categoryName mine incoming answer).decisions := by
  have ⟨apart, _⟩ := (split_apart mine incoming).nodup ids
  rw [planGuideMerge]
  dsimp only
  split
  case isTrue none' =>
    rw [List.isEmpty_iff.mp none']
    exact ⟨.refl _, List.nodup_nil, fun _ h => h⟩
  case isFalse =>
    split
    case isTrue  => exact fallback_decides apart categoryName
    case isFalse =>
      cases answer
      case none       => exact fallback_decides apart categoryName
      case some value => exact parse_decides apart categoryName value

-- Whatever the agent answers, a merge neither loses nor doubles an entry.
theorem plan_partitions [Unicode] (categoryName : String → String) (mine : List EntryRow)
    (ids : (mine.map (·.id)).Nodup) (incoming : List Fields) (answer : Option Value) :
    let plan := planGuideMerge categoryName mine incoming answer
    (incoming.Perm
        (incoming.filter (fun e => mine.any (same e)) ++ plan.additions ++ plan.decisions.flatMap (·.incoming)) ∧
      plan.identical = (incoming.filter fun e => mine.any (same e)).length) ∧
    (((plan.decisions.flatMap (·.mine)).map (·.id)).Nodup ∧ ∀ d ∈ plan.decisions, ∀ m ∈ d.mine, m ∈ mine) ∧
    ∀ (db db' : Db) origin skipped choices reason now change,
      db.applyEdits (edits plan origin skipped choices) reason now = .ok (db', change) →
      ∀ row ∈ db.entries, (∀ d ∈ plan.decisions, ∀ m ∈ d.mine, m.id ≠ row.id) → row ∈ db'.entries := by
  have ⟨perm, identical⟩ := split_entries mine incoming
  have ⟨_, within⟩ := (split_apart mine incoming).nodup ids
  have decides := plan_decides categoryName ids incoming answer
  refine ⟨⟨?_, identical⟩, ⟨decides.nodup, fun d memD m memM => ?_⟩, ?_⟩
  · rw [List.append_assoc]
    exact perm.trans ((decides.incoming.symm.append_left _).append_left _)
  · exact within m (decides.own m (List.mem_flatMap_of_mem memD memM))
  · intro db db' origin skipped choices reason now change ok row there free
    refine kept_applyEdits ok there fun edit mem is => ?_
    rcases target_edits mem with eq | ⟨d, memD, m, memM, eq⟩
    · cases eq.symm.trans is
    · exact free d memD m memM (Option.some.inj (eq.symm.trans is))

-- An answer that names an entry of each guide twice, and numbers that there are not.
private abbrev twice : Value :=
  .object [("decisions", .array [
    .object [("point", .string "Sign-off"), ("mine", .array [.number (some 1), .number (some 1)]),
      ("incoming", .array [.number (some 0), .number (some 0), .number (some 7)])],
    .object [("mine", .array [.number (some 1)]), ("incoming", .array [.number (some (-1)), .null])]])]

private abbrev best : EntryRow where
  category := "B6"; kind := .guideline; statement := "Best"; id := 1
  status := .accepted; source := .you; createdAt := 0; updatedAt := 0

private abbrev cheers : Fields where
  category := "B6"; kind := .guideline; statement := "Cheers"

theorem plan_partitions_twice :
    let incoming := [cheers, { cheers with statement := "Yours" }]
    let plan := @planGuideMerge (fun _ => "") Guide.ascii [best] incoming (some twice)
    plan.decisions.map (fun d => (d.mine.map (·.id), d.incoming.map (·.statement))) =
        [([1], ["Cheers"]), ([], ["Yours"])] ∧
      ((plan.decisions.flatMap (·.mine)).map (·.id)).Nodup :=
  letI := Guide.ascii
  ⟨by decide +kernel,
    (plan_partitions _ [best] (List.nodup_singleton _) _ _).right.left.left⟩

end Kaluta.GuideMerge
