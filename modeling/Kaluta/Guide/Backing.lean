import Kaluta.Guide.Decided

-- What stands behind each proposal, and what an operation makes of it.
namespace Kaluta.Guide

-- A proposal with the pairs behind it.
structure Backing where
  proposal : Option ProposalRow
  pairs    : List Pair

namespace Backing

def update (b : Backing) (f : ProposalRow → ProposalRow) : Backing :=
  { b with proposal := b.proposal.map f }

def counted (b : Backing) : Backing :=
  b.update ({ · with support := b.pairs.length })

def add (b : Backing) (e : Pair) : Backing :=
  if b.pairs.all (·.compositionId ≠ e.compositionId) then { b with pairs := b.pairs ++ [e] } else b

def addAll (id : ProposalId) (rows : List PairRow) (b : Backing) : Backing :=
  rows.foldl (fun b r => b.add { r with proposalId := id }) b

def decided (status : ProposalStatus) (now : Millis) (b : Backing) : Backing :=
  b.update ({ · with
    status, decidedAt := if status = .accepted ∨ status = .rejected then some now else none, updatedAt := now })

def shownFrom (threshold : Nat) (now : Millis) (b : Backing) : Backing :=
  b.update fun p =>
    if p.status = .watching ∧ max threshold 1 ≤ p.support then { p with status := .proposed, shownAt := some now } else p

def filed (threshold : Nat) (rows : List PairRow) (now : Millis) (id : ProposalId) (b : Backing) : Backing :=
  ((b.addAll id rows).counted).shownFrom threshold now

def without (pair : CompositionId) (b : Backing) : Backing :=
  ({ b with pairs := b.pairs.filter (·.compositionId ≠ pair) } : Backing).counted.update fun p =>
    if p.support = 0 then { p with status := .watching } else p

def withPair (id : ProposalId) (row : PairRow) (b : Backing) : Backing :=
  (b.addAll id [row]).counted.update fun p =>
    if p.status = .watching ∧ p.shownAt.isSome then { p with status := .proposed } else p

def ofSnapshot (s : ProposalSnapshot) : Backing :=
  ({ proposal := some s.proposal, pairs := [] } : Backing).addAll s.proposal.id s.evidence

end Backing

namespace Db

def backing (db : Db) (id : ProposalId) : Backing where
  proposal := db.proposals.find? id
  pairs    := db.pairs.rows.filter (·.proposalId = id)

variable {db : Db} {id : ProposalId}

theorem length_pairsOf (db : Db) (id : ProposalId) : (db.pairsOf id).length = (db.backing id).pairs.length := by
  rw [pairsOf, List.length_map, backing]

-- An update of one proposal.
theorem backing_update (db : Db) (id : ProposalId) {p : ProposalRow → Bool} {q : ProposalRow → Prop} [DecidablePred q] {f : ProposalRow → ProposalRow}
    (hf : ∀ r, (f r).id = r.id) (hp : ∀ r, p r = true ↔ r.id = id ∧ q r) :
    ({ db with proposals := db.proposals.update p f hf } : Db).backing =
      Function.update db.backing id ((db.backing id).update fun r => if q r then f r else r) := by
  funext k
  by_cases hk : k = id
  case pos =>
    subst hk
    rw [Function.update_self]
    simp only [backing, Backing.update, Table.find?_update, Backing.mk.injEq, and_true]
    refine Option.map_congr fun r hr => ?_
    simp [hp, Table.find?_key_eq hr]
  case neg =>
    rw [Function.update_of_ne hk]
    simp only [backing, Table.find?_update, Backing.mk.injEq, and_true]
    have same : ∀ r ∈ db.proposals.find? k, (if p r then f r else r) = r := fun r hr => by
      have ne : ¬(p r = true) := fun h => hk ((Table.find?_key_eq hr).symm.trans ((hp r).mp h).left)
      rw [if_neg ne]
    rw [Option.map_congr same, Option.map_id']

theorem backing_countPairs (db : Db) (id : ProposalId) :
    (db.countPairs id).backing = Function.update db.backing id (db.backing id).counted := by
  have := backing_update db id (p := (·.id = id)) (q := fun _ => True)
    (f := ({ · with support := (db.pairsOf id).length })) (fun _ => rfl) (by simp)
  rw [countPairs, this]
  simp only [if_true, length_pairsOf]
  rfl

theorem backing_insertPair (db : Db) (id : ProposalId) (row : PairRow) :
    (db.insertPairs id [row]).backing =
      Function.update db.backing id ((db.backing id).add { row with proposalId := id }) := by
  let e : Pair := { row with proposalId := id }
  have iff : (∀ b ∈ db.pairs.rows, (b.proposalId, b.compositionId) ≠ (e.proposalId, e.compositionId)) ↔
      (db.backing id).pairs.all (·.compositionId ≠ e.compositionId) = true := by
    simp only [backing, List.all_eq_true, List.mem_filter, decide_eq_true_eq, ne_eq, Prod.mk.injEq, not_and, and_imp, e]
  by_cases new : ∀ b ∈ db.pairs.rows, (b.proposalId, b.compositionId) ≠ (e.proposalId, e.compositionId)
  case pos =>
    have inserted : db.pairs.insertOrIgnore e = db.pairs.insert e new := dif_pos new
    rw [Backing.add, if_pos (iff.mp new)]
    funext k
    by_cases hk : k = id
    case pos =>
      subst hk
      rw [Function.update_self]
      simp [insertPairs, backing, e, inserted, Table.insert]
    case neg =>
      rw [Function.update_of_ne hk]
      simp [insertPairs, backing, e, inserted, Table.insert, Ne.symm hk]
  case neg =>
    have ignored : db.pairs.insertOrIgnore e = db.pairs := dif_neg new
    rw [Backing.add, if_neg fun h => new (iff.mpr h), Function.update_eq_self]
    simp [insertPairs, e, ignored]

theorem backing_insertPairs (db : Db) (id : ProposalId) (rows : List PairRow) :
    (db.insertPairs id rows).backing = Function.update db.backing id ((db.backing id).addAll id rows) := by
  induction rows generalizing db
  case nil => exact (Function.update_eq_self id db.backing).symm
  case cons row rows ih =>
    have := ih (db.insertPairs id [row])
    rw [backing_insertPair, Function.update_self, Function.update_idem] at this
    exact this

theorem backing_setProposalStatus (db : Db) (now : Millis) (status : ProposalStatus) (id : ProposalId) :
    (db.setProposalStatus now status id).backing = Function.update db.backing id ((db.backing id).decided status now) := by
  have := backing_update db id (p := (·.id = id)) (q := fun _ => True)
    (f := ({ · with
      status, decidedAt := if status = .accepted ∨ status = .rejected then some now else none, updatedAt := now }))
    (fun _ => rfl) (by simp)
  rw [setProposalStatus, this]
  simp only [if_true]
  rfl

theorem backing_shownFrom (db : Db) (id : ProposalId) (threshold : Nat) (now : Millis) :
    (db.shownFrom id threshold now).backing =
      Function.update db.backing id ((db.backing id).shownFrom threshold now) :=
  backing_update _ id (q := fun r => r.status = .watching ∧ max threshold 1 ≤ r.support) _ (by simp)

theorem backing_filed (db : Db) (id : ProposalId) (threshold : Nat) (rows : List PairRow) (now : Millis) :
    (((db.insertPairs id rows).countPairs id).shownFrom id threshold now).backing =
      Function.update db.backing id ((db.backing id).filed threshold rows now id) := by
  rw [backing_shownFrom, backing_countPairs, backing_insertPairs]
  simp only [Function.update_self, Function.update_idem]
  rfl

theorem backing_dropFrom (db : Db) (pair : CompositionId) (id : ProposalId) :
    (dropFrom pair db id).backing = Function.update db.backing id ((db.backing id).without pair) := by
  have deleted : ({ db with pairs := db.pairs.delete fun e => e.proposalId = id ∧ e.compositionId = pair } : Db).backing =
      Function.update db.backing id
        { db.backing id with pairs := (db.backing id).pairs.filter (·.compositionId ≠ pair) } := by
    funext k
    by_cases hk : k = id
    case pos =>
      subst hk
      rw [Function.update_self]
      simp only [backing, Table.delete, List.filter_filter, Backing.mk.injEq, true_and]
      refine List.filter_congr fun e _ => ?_
      by_cases e.proposalId = k <;> simp [*]
    case neg =>
      rw [Function.update_of_ne hk]
      simp only [backing, Backing.mk.injEq, true_and]
      exact Table.filter_delete fun e _ he => decide_eq_false fun eq => hk (eq.symm.trans (of_decide_eq_true he).left)
  rw [dropFrom, backing_update _ id (q := fun p => p.support = 0) _ (by simp), backing_countPairs, deleted]
  simp only [Function.update_self, Function.update_idem]
  rfl

theorem backing_putBack (db : Db) (r : ProposalId × PairRow) :
    (db.putBack r).backing = Function.update db.backing r.1 ((db.backing r.1).withPair r.1 r.2) := by
  rw [putBack, backing_update _ r.1 (q := fun p => p.status = .watching ∧ p.shownAt.isSome) _ (by simp),
    backing_countPairs, backing_insertPairs]
  simp only [Function.update_self, Function.update_idem]
  rfl

theorem backing_putSnapshot (db : Db) (s : ProposalSnapshot) :
    (db.putSnapshot s).backing = Function.update db.backing s.proposal.id (.ofSnapshot s) := by
  have replaced : ({ db with
      proposals := db.proposals.replace s.proposal
      pairs     := db.pairs.delete (·.proposalId = s.proposal.id) } : Db).backing =
        Function.update db.backing s.proposal.id { proposal := some s.proposal, pairs := [] } := by
    funext k
    by_cases hk : k = s.proposal.id
    case pos =>
      subst hk
      rw [Function.update_self]
      simp only [backing, Table.find?_replace, if_true, Table.delete, List.filter_filter, Backing.mk.injEq, true_and]
      exact List.filter_eq_nil_iff.mpr fun e _ => by by_cases e.proposalId = s.proposal.id <;> simp [*]
    case neg =>
      rw [Function.update_of_ne hk]
      simp only [backing, Table.find?_replace, if_neg hk, Backing.mk.injEq, true_and]
      exact Table.filter_delete fun e _ he => decide_eq_false fun eq => hk (eq.symm.trans (of_decide_eq_true he))
  rw [putSnapshot, backing_insertPairs, replaced, Function.update_self, Function.update_idem]
  rfl

end Db

namespace Backing

variable {b : Backing} {id : ProposalId} {rows : List PairRow} {f : ProposalRow → ProposalRow}

@[simp]
theorem mem_update {p : ProposalRow} : p ∈ (b.update f).proposal ↔ ∃ r ∈ b.proposal, f r = p := by
  simp [update]

@[simp]
theorem proposal_add (b : Backing) (e : Pair) : (b.add e).proposal = b.proposal := by
  rw [add]
  split <;> rfl

@[simp]
theorem proposal_addAll (b : Backing) : (b.addAll id rows).proposal = b.proposal :=
  List.foldl_preserves (P := fun b' : Backing => b'.proposal = b.proposal) (fun _ _ ih => (proposal_add _ _).trans ih) rfl

-- Whether the proposal is of the guide or of a fact.
def target (b : Backing) : Option ProposalTarget :=
  b.proposal.map (·.target)

theorem target_update (hf : ∀ r, (f r).target = r.target) : (b.update f).target = b.target := by
  rw [target, update, Option.map_map]
  exact Option.map_congr fun r _ => hf r

@[simp]
theorem target_counted (b : Backing) : b.counted.target = b.target :=
  target_update (by exact fun _ => rfl)

@[simp]
theorem target_addAll (b : Backing) : (b.addAll id rows).target = b.target := by
  rw [target, proposal_addAll, target]

@[simp]
theorem target_decided (b : Backing) : (b.decided status now).target = b.target :=
  target_update (by exact fun _ => rfl)

@[simp]
theorem target_shownFrom (b : Backing) : (b.shownFrom threshold now).target = b.target :=
  target_update (by exact fun _ => by split <;> rfl)

@[simp]
theorem target_filed (b : Backing) : (b.filed threshold rows now id).target = b.target := by
  rw [filed, target_shownFrom, target_counted, target_addAll]

@[simp]
theorem target_without (b : Backing) : (b.without pair).target = b.target :=
  (target_update (by exact fun _ => by split <;> rfl)).trans (target_counted _)

@[simp]
theorem target_withPair (b : Backing) : (b.withPair id row).target = b.target := by
  rw [withPair, target_update (by exact fun _ => by split <;> rfl), target_counted, target_addAll]

theorem pairs_add_of_new {e : Pair} (new : ∀ e' ∈ b.pairs, e'.compositionId ≠ e.compositionId) :
    (b.add e).pairs = b.pairs ++ [e] := by
  rw [add, if_pos (by simpa using new)]

theorem pairs_addAll_of_new (nodup : (rows.map (·.compositionId)).Nodup)
    (new : ∀ r ∈ rows, ∀ e ∈ b.pairs, e.compositionId ≠ r.compositionId) :
    (b.addAll id rows).pairs = b.pairs ++ rows.map ({ · with proposalId := id }) := by
  induction rows generalizing b
  case nil => simp [addAll]
  case cons row rows ih =>
    have ⟨other, nodup⟩ := List.nodup_cons.mp nodup
    have added := pairs_add_of_new (e := { row with proposalId := id }) (new row List.mem_cons_self)
    have := ih (b := b.add { row with proposalId := id }) nodup fun r hr e he => by
      rw [added] at he
      rcases List.mem_append.mp he with he | he
      · exact new r (List.mem_cons_of_mem _ hr) e he
      · rw [List.mem_singleton.mp he]
        exact fun eq : row.compositionId = r.compositionId => other (List.mem_map.mpr ⟨r, hr, eq.symm⟩)
    rw [added, List.append_assoc] at this
    exact this

-- What holds of each proposal: pairs are behind proposals of the guide, which count them, and what is proposed was
-- shown.
structure Sound (b : Backing) : Prop where
  backed  : b.pairs ≠ [] → ∃ p ∈ b.proposal, p.target = .guide
  support : ∀ p ∈ b.proposal, p.target = .guide → p.support = b.pairs.length
  shown   : ∀ p ∈ b.proposal, p.status = .proposed → p.shownAt.isSome

theorem Sound.counted (backed : b.pairs ≠ [] → ∃ p ∈ b.proposal, p.target = .guide)
    (shown : ∀ p ∈ b.proposal, p.status = .proposed → p.shownAt.isSome) : b.counted.Sound where
  backed hne := by
    have ⟨p, hp, target⟩ := backed hne
    exact ⟨_, mem_update.mpr ⟨p, hp, rfl⟩, target⟩
  support p hp _ := by
    obtain ⟨r, _, rfl⟩ := mem_update.mp hp
    rfl
  shown p hp proposed := by
    obtain ⟨r, hr, rfl⟩ := mem_update.mp hp
    exact shown r hr proposed

theorem Sound.restate (h : b.Sound) (target : ∀ r, (f r).target = r.target) (support : ∀ r, (f r).support = r.support)
    (shown : ∀ r ∈ b.proposal, (f r).status = .proposed → (f r).shownAt.isSome) : (b.update f).Sound where
  backed hne := by
    have ⟨p, hp, guide⟩ := h.backed hne
    exact ⟨f p, mem_update.mpr ⟨p, hp, rfl⟩, (target p).trans guide⟩
  support p hp guide := by
    obtain ⟨r, hr, rfl⟩ := mem_update.mp hp
    exact (support r).trans (h.support r hr (target r ▸ guide))
  shown p hp proposed := by
    obtain ⟨r, hr, rfl⟩ := mem_update.mp hp
    exact shown r hr proposed

theorem Sound.decided (h : b.Sound) {status : ProposalStatus} (decides : status.isOpen = false) :
    (b.decided status now).Sound :=
  h.restate (fun _ => rfl) (fun _ => rfl) fun _ _ (proposed : status = .proposed) => by
    rw [proposed] at decides
    cases decides

theorem Sound.shownFrom (h : b.Sound) : (b.shownFrom threshold now).Sound :=
  h.restate (fun _ => by split <;> rfl) (fun _ => by split <;> rfl) fun r hr => by
    split
    case isTrue  => exact fun _ => rfl
    case isFalse => exact h.shown r hr

theorem Sound.filed (guide : ∃ p ∈ b.proposal, p.target = .guide)
    (shown : ∀ p ∈ b.proposal, p.status = .proposed → p.shownAt.isSome) : (b.filed threshold rows now id).Sound :=
  (Sound.counted (b := b.addAll id rows) (fun _ => by rwa [proposal_addAll]) (by rwa [proposal_addAll])).shownFrom

theorem Sound.without (h : b.Sound) : (b.without pair).Sound := by
  have counted : ({ b with pairs := b.pairs.filter (·.compositionId ≠ pair) } : Backing).counted.Sound :=
    .counted (fun hne => h.backed fun nil => hne (by simp [nil])) h.shown
  refine counted.restate (fun _ => by split <;> rfl) (fun _ => by split <;> rfl) fun r hr => ?_
  split
  case isTrue  => exact nofun
  case isFalse => exact counted.shown r hr

theorem Sound.withPair (h : b.Sound) (guide : ∃ p ∈ b.proposal, p.target = .guide) : (b.withPair id row).Sound := by
  have counted : (b.addAll id [row]).counted.Sound :=
    .counted (fun _ => by rwa [proposal_addAll]) (by rw [proposal_addAll]; exact h.shown)
  refine counted.restate (fun _ => by split <;> rfl) (fun _ => by split <;> rfl) fun r hr => ?_
  split
  case isTrue was => exact fun _ => was.right
  case isFalse    => exact counted.shown r hr

-- A pair taken out and put back again.
section Again

variable {e : Pair}

theorem pairs_without_withPair (hid : e.proposalId = id) :
    ((b.without e.compositionId).withPair id e.toPairRow).pairs = b.pairs.filter (·.compositionId ≠ e.compositionId) ++ [e] := by
  have added : ((b.without e.compositionId).addAll id [e.toPairRow]).pairs = _ := pairs_addAll_of_new (by simp)
    fun r hr e' he' => by
      rw [List.mem_singleton.mp hr]
      simpa using (List.mem_filter.mp he').right
  rw [List.map_singleton, ← hid] at added
  exact hid ▸ added

theorem perm_without_withPair (nodup : (b.pairs.map (·.compositionId)).Nodup) (he : e ∈ b.pairs) :
    (b.pairs.filter (·.compositionId ≠ e.compositionId) ++ [e]).Perm b.pairs := by
  have rest : ∀ e' ∈ b.pairs.filter (·.compositionId ≠ e.compositionId), e' ∉ [e] := fun e' he' mem => by
    rw [List.mem_singleton.mp mem] at he'
    simpa using (List.mem_filter.mp he').right
  refine (List.perm_ext_iff_of_nodup ?_ nodup.of_map).mpr fun e' => ?_
  · exact List.nodup_append'.mpr ⟨nodup.of_map.filter _, List.nodup_singleton e, rest⟩
  · simp only [List.mem_append, List.mem_filter, List.mem_singleton]
    constructor
    · rintro (⟨h, _⟩ | rfl)
      · exact h
      · exact he
    · intro h
      by_cases eq : e'.compositionId = e.compositionId
      · exact .inr (List.inj_on_of_nodup_map nodup h he eq)
      · exact .inl ⟨h, by simpa using eq⟩

-- Its proposal is as it was, unless it was watched though it had been shown before: then it shows.
theorem proposal_without_withPair {p : ProposalRow} (h : b.Sound) (nodup : (b.pairs.map (·.compositionId)).Nodup)
    (he : e ∈ b.pairs) (hid : e.proposalId = id) (hp : p ∈ b.proposal) (opened : p.status.isOpen = true) :
    ((b.without e.compositionId).withPair id e.toPairRow).proposal =
      some (if p.status = .watching ∧ p.shownAt.isSome then { p with status := .proposed } else p) := by
  have length : (((b.without e.compositionId).addAll id [e.toPairRow]).pairs).length = p.support := by
    have guide : p.target = .guide := by
      have ⟨p', hp', guide⟩ := h.backed (List.ne_nil_of_mem he)
      exact Option.mem_unique hp hp' ▸ guide
    rw [h.support p hp guide, ← (perm_without_withPair nodup he).length_eq, ← pairs_without_withPair hid]
    rfl
  have shown := h.shown p hp
  have hp : b.proposal = some p := hp
  rw [withPair, counted, length]
  simp only [update, proposal_addAll, without, counted, hp, Option.map_some]
  cases status : p.status
  case watching =>
    obtain ⟨⟩ := p
    subst status
    split <;> simp
  case proposed =>
    have shown := shown status
    obtain ⟨⟩ := p
    subst status
    split <;> simp_all
  case accepted | rejected => rw [status] at opened; cases opened

end Again

end Backing

namespace Db

variable {db : Db} {id : ProposalId} {pair : CompositionId}

theorem mem_pairProposals_iff : id ∈ db.pairProposals pair ↔
    ∃ p ∈ (db.backing id).proposal, p.status.isOpen = true ∧ ∃ e ∈ (db.backing id).pairs, e.compositionId = pair := by
  rw [pairProposals, (List.perm_insertionSort _ _).mem_iff]
  simp only [List.mem_map, List.mem_filter, decide_eq_true_eq, backing]
  constructor
  · rintro ⟨p, ⟨hp, opened, e, he, hid, rfl⟩, rfl⟩
    exact ⟨p, Table.find?_key hp, opened, e, ⟨he, hid⟩, rfl⟩
  · rintro ⟨p, hp, opened, e, ⟨he, hid⟩, rfl⟩
    obtain rfl := Table.find?_key_eq hp
    exact ⟨p, ⟨Table.find?_mem hp, opened, e, he, hid, rfl⟩, rfl⟩

theorem nodup_pairProposals : (db.pairProposals pair).Nodup := by
  rw [pairProposals, (List.perm_insertionSort _ _).nodup_iff]
  exact (List.filter_sublist.map _).nodup db.proposals.nodup

theorem nodup_backing (db : Db) (id : ProposalId) : ((db.backing id).pairs.map (·.compositionId)).Nodup := by
  refine (List.nodup_map_iff_inj_on (db.pairs.nodup.of_map.filter _)).mpr fun e he e' he' eq => ?_
  have ⟨he, hid⟩ := List.mem_filter.mp he
  have ⟨he', hid'⟩ := List.mem_filter.mp he'
  exact Table.eq_of_key_eq he he'
    (Prod.ext ((of_decide_eq_true hid).trans (of_decide_eq_true hid').symm) eq)

theorem backing_dropPair : (db.dropPair pair).1.backing id =
    if id ∈ db.pairProposals pair then (db.backing id).without pair else db.backing id := by
  have step (s : Db) (i : ProposalId) (_ : i ∈ db.pairProposals pair) := backing_dropFrom s pair i
  let without (_ : ProposalId) (b : Backing) := b.without pair
  split
  case isTrue h  =>
    exact List.foldl_update_of_mem backing (fun i => i) without step (by simpa using nodup_pairProposals) h
  case isFalse h => exact List.foldl_update_of_not_mem backing (fun i => i) without step (by simpa using h)

-- The pair as each proposal that it was taken from had it.
theorem mem_removed {r : ProposalId × PairRow} (h : r ∈ (db.dropPair pair).2) : r.1 ∈ db.pairProposals pair ∧
    ∃ e ∈ (db.backing r.1).pairs, e.compositionId = pair ∧ e.toPairRow = r.2 := by
  have ⟨id, hid, taken⟩ := List.mem_filterMap.mp h
  obtain ⟨row, found, rfl⟩ := Option.map_eq_some_iff.mp taken
  have ⟨e, he, eq⟩ := List.mem_map.mp (List.mem_of_find?_eq_some found)
  have hpair : row.compositionId = pair := by simpa using List.find?_some found
  exact ⟨hid, e, he, eq ▸ hpair, eq⟩

theorem removed_ids : (db.dropPair pair).2.map (·.1) = db.pairProposals pair := by
  have each : ∀ id ∈ db.pairProposals pair,
      (((db.pairsOf id).find? (·.compositionId = pair)).map (id, ·)).map (·.1) = some id := by
    intro id hid
    have ⟨_, _, _, e, he, eq⟩ := mem_pairProposals_iff.mp hid
    have some : ((db.pairsOf id).find? (·.compositionId = pair)).isSome = true :=
      List.find?_isSome.mpr ⟨e.toPairRow, List.mem_map_of_mem he, decide_eq_true eq⟩
    have ⟨row, found⟩ := Option.isSome_iff_exists.mp some
    rw [found]
    rfl
  rw [dropPair, List.map_filterMap, List.filterMap_congr each, List.filterMap_some]

-- A pair left out of every open proposal, and put back with nothing in between.
theorem backing_again (db : Db) (pair : CompositionId) (id : ProposalId) :
    ((db.dropPair pair).1.restorePair (db.dropPair pair).2).backing id = db.backing id ∨
      id ∈ db.pairProposals pair ∧ ∃ e ∈ (db.backing id).pairs, e.compositionId = pair ∧
        ((db.dropPair pair).1.restorePair (db.dropPair pair).2).backing id =
          ((db.backing id).without e.compositionId).withPair id e.toPairRow := by
  have step (s : Db) (r : ProposalId × PairRow) (_ : r ∈ (db.dropPair pair).2) := backing_putBack s r
  let withPair (r : ProposalId × PairRow) (b : Backing) := b.withPair r.1 r.2
  by_cases h : id ∈ db.pairProposals pair
  case pos =>
    obtain ⟨r, hr, rfl⟩ := List.mem_map.mp (removed_ids ▸ h)
    have ⟨_, e, he, hpair, eq⟩ := mem_removed hr
    have put := List.foldl_update_of_mem backing (·.1) withPair (s := (db.dropPair pair).1) step
      (removed_ids ▸ nodup_pairProposals) hr
    rw [backing_dropPair, if_pos h] at put
    refine .inr ⟨h, e, he, hpair, ?_⟩
    rw [hpair, eq]
    exact put
  case neg =>
    have same := List.foldl_update_of_not_mem backing (·.1) withPair (s := (db.dropPair pair).1) (k := id) step
      (removed_ids ▸ h)
    rw [backing_dropPair, if_neg h] at same
    exact .inl same

end Db

-- Watched though it was shown before, when it had lost all its pairs.
def ProposalRow.Emptied (p : ProposalRow) : Prop :=
  p.status = .watching ∧ p.shownAt.isSome = true

-- What a pair left out and put back leaves of the proposals: all but the status of those that it is behind and that
-- were emptied before.
structure PutBack (pair : CompositionId) (db db' : Db) : Prop where
  evidence : ∀ e, e ∈ db'.pairs ↔ e ∈ db.pairs
  support  : ∀ id, (db'.proposals.find? id).map (·.support) = (db.proposals.find? id).map (·.support)
  status   : ∀ p ∈ db.proposals, (p.Emptied → ∀ e ∈ db.pairs, e.proposalId = p.id → e.compositionId ≠ pair) →
    (db'.proposals.find? p.id).map (·.status) = some p.status

theorem Db.mem_backing {db : Db} {e : Pair} : e ∈ db.pairs ↔ e ∈ (db.backing e.proposalId).pairs := by
  simp [backing, Table.mem_rows]

theorem Db.putBack_again {db : Db} (sound : ∀ id, (db.backing id).Sound) (pair : CompositionId) :
    PutBack pair db ((db.dropPair pair).1.restorePair (db.dropPair pair).2) := by
  have each := db.backing_again pair
  generalize (db.dropPair pair).1.restorePair (db.dropPair pair).2 = db' at each
  refine ⟨fun e => ?_, fun id => ?_, fun p hp left => ?_⟩
  · rw [mem_backing, mem_backing]
    rcases each e.proposalId with same | ⟨_, e', he', _, again⟩
    · rw [same]
    · rw [again, Backing.pairs_without_withPair (of_decide_eq_true (List.mem_filter.mp he').right)]
      exact (Backing.perm_without_withPair (db.nodup_backing _) he').mem_iff
  · rcases each id with same | ⟨h, e', he', _, again⟩
    · exact congrArg (fun b => b.proposal.map (·.support)) same
    · have ⟨p, hp, opened, _⟩ := mem_pairProposals_iff.mp h
      have := Backing.proposal_without_withPair (sound id) (db.nodup_backing _) he'
        (of_decide_eq_true (List.mem_filter.mp he').right) hp opened
      rw [← again] at this
      rw [show db'.proposals.find? id = _ from this, show db.proposals.find? id = some p from hp]
      simp only [Option.map_some]
      split <;> rfl
  · rcases each p.id with same | ⟨h, e', he', hpair, again⟩
    · rw [show db'.proposals.find? p.id = db.proposals.find? p.id from congrArg Backing.proposal same, Table.find?_key hp]
      rfl
    · have found : p ∈ (db.backing p.id).proposal := Table.find?_key hp
      have ⟨p', hp', opened, _⟩ := mem_pairProposals_iff.mp h
      obtain rfl := Option.mem_unique found hp'
      have ⟨he', hid⟩ := List.mem_filter.mp he'
      have := Backing.proposal_without_withPair (sound p.id) (db.nodup_backing _) (List.mem_filter.mpr ⟨he', hid⟩)
        (of_decide_eq_true hid) found opened
      have kept : ¬(p.status = .watching ∧ p.shownAt.isSome = true) := fun emptied =>
        left emptied e' he' (of_decide_eq_true hid) hpair
      rw [← again, if_neg kept] at this
      rw [show db'.proposals.find? p.id = some p from this]
      rfl

end Kaluta.Guide
