import Kaluta.Store.Basic
import Mathlib.Data.Finset.Card

namespace Kaluta

-- Above this many ids a merged hint becomes one that invalidates.
def MAX_HINT_IDS : Nat := 200

-- What changed in a mailbox's thread list.
@[ext]
structure ChangeHint where
  inserted   : Finset ThreadId := ∅
  updated    : Finset ThreadId := ∅
  removed    : Finset ThreadId := ∅
  invalidate : Bool := false -- Too much changed to describe.
  deriving DecidableEq

namespace ChangeHint

def invalidating : ChangeHint where
  invalidate := true

def merge (self newer : ChangeHint) : ChangeHint :=
  if self.invalidate || newer.invalidate then
    invalidating
  else
    let removed  := self.removed \ newer.inserted
    let inserted := self.inserted ∪ newer.inserted
    let updated  := self.updated ∪ (newer.updated \ inserted)
    let updated  := updated \ newer.removed
    -- Inserted then removed inside one window.
    let removed  := removed ∪ (newer.removed \ inserted)
    let inserted := inserted \ newer.removed
    if inserted.card + updated.card + removed.card > MAX_HINT_IDS then
      invalidating
    else
      { inserted, updated, removed }

def ids (h : ChangeHint) : Finset ThreadId :=
  h.inserted ∪ h.updated ∪ h.removed

end ChangeHint

-- An account and one of its mailboxes.
abbrev MailboxKey := Option String × String

-- A hint waits, merged with those before it, until the window ends.
def dispatch (pending : MailboxKey → Option ChangeHint) (event : MailboxKey × ChangeHint) :
    MailboxKey → Option ChangeHint :=
  let merged := match pending event.1 with
    | some prev => prev.merge event.2
    | none      => event.2
  Function.update pending event.1 (some merged)

-- What is told about a mailbox when the window ends.
def flush (events : List (MailboxKey × ChangeHint)) : MailboxKey → Option ChangeHint :=
  events.foldl dispatch fun _ => none

-- What the consumer of the hints has of a mailbox: the threads it shows, and which of them it has to
-- read again.
@[ext]
structure View where
  rows  : Finset ThreadId
  stale : Finset ThreadId
  deriving DecidableEq

-- Patches the rows that a hint names, or starts over with what is in the mailbox.
def View.apply (v : View) (mailbox : Finset ThreadId) (h : ChangeHint) : View :=
  if h.invalidate then
    ⟨mailbox, mailbox⟩
  else
    let rows := (v.rows \ h.removed) ∪ h.inserted
    ⟨rows, (v.stale ∪ h.updated ∪ h.inserted) ∩ rows⟩

-- A change of a mailbox: the hint about it, and the threads that are in the mailbox from then on.
structure Reported where
  hint    : ChangeHint
  mailbox : Finset ThreadId

-- The hint says what becomes of the mailbox.
def Reported.From (r : Reported) (mailbox : Finset ThreadId) : Prop :=
  r.hint.invalidate = true ∨
    (Disjoint r.hint.inserted mailbox ∧ r.hint.updated ⊆ mailbox ∧ r.hint.removed ⊆ mailbox ∧
      Disjoint r.hint.updated r.hint.removed ∧
      r.mailbox = (mailbox \ r.hint.removed) ∪ r.hint.inserted)

-- Changes that follow one another.
def Consistent : Finset ThreadId → List Reported → Prop
  | _, []            => True
  | mailbox, r :: rs => r.From mailbox ∧ Consistent r.mailbox rs

-- The mailbox after changes.
def mailboxAfter (mailbox : Finset ThreadId) (rs : List Reported) : Finset ThreadId :=
  rs.foldl (fun _ r => r.mailbox) mailbox

-- Applies every hint when it comes.
def View.applyEach (v : View) (rs : List Reported) : View :=
  rs.foldl (fun v r => v.apply r.mailbox r.hint) v

namespace ChangeHint

variable {a b h : ChangeHint} {x : ThreadId}

theorem merge_invalidates (hi : a.invalidate = true ∨ b.invalidate = true) : a.merge b = invalidating := by
  rw [merge, if_pos (by simpa using hi)]

-- Two hints in one, however many ids they name.
def joined (a b : ChangeHint) : ChangeHint where
  inserted := (a.inserted ∪ b.inserted) \ b.removed
  updated  := (a.updated ∪ (b.updated \ (a.inserted ∪ b.inserted))) \ b.removed
  removed  := (a.removed \ b.inserted) ∪ (b.removed \ (a.inserted ∪ b.inserted))

def names (h : ChangeHint) : Nat :=
  h.inserted.card + h.updated.card + h.removed.card

theorem merge_of_not_invalidate (ha : a.invalidate = false) (hb : b.invalidate = false) :
    a.merge b = if (a.joined b).names > MAX_HINT_IDS then invalidating else a.joined b := by
  rw [merge, if_neg (by simp [ha, hb])]
  rfl

theorem merge_eq (hi : (a.merge b).invalidate = false) :
    a.invalidate = false ∧ b.invalidate = false ∧ a.merge b = a.joined b := by
  by_cases hab : a.invalidate = true ∨ b.invalidate = true
  case pos => rw [merge_invalidates hab] at hi; cases hi
  case neg =>
    rw [not_or, Bool.not_eq_true, Bool.not_eq_true] at hab
    rw [merge_of_not_invalidate hab.left hab.right] at hi ⊢
    refine ⟨hab.left, hab.right, ?_⟩
    split
    case isTrue hn  => rw [if_pos hn] at hi; cases hi
    case isFalse hn => rfl

theorem joined_ids : (a.joined b).ids ⊆ a.ids ∪ b.ids := by
  intro x
  simp only [ids, joined, Finset.mem_union, Finset.mem_sdiff]
  tauto

theorem foldl_merge_invalidates {rs : List Reported} (hi : h.invalidate = true ∨ ∃ r ∈ rs, r.hint.invalidate = true) :
    (rs.foldl (fun h r => h.merge r.hint) h).invalidate = true := by
  induction rs generalizing h
  case nil => simpa using hi
  case cons r rs ih =>
    apply ih
    have first : h.invalidate = true ∨ r.hint.invalidate = true → (h.merge r.hint).invalidate = true := by
      intro hi
      rw [merge_invalidates hi]
      rfl
    obtain hi | ⟨r', hr, hi⟩ := hi
    · exact .inl (first (.inl hi))
    · obtain rfl | hr := List.mem_cons.mp hr
      · exact .inl (first (.inr hi))
      · exact .inr ⟨r', hr, hi⟩

end ChangeHint

namespace View

variable {v : View} {a b h : ChangeHint} {mailbox mailbox' : Finset ThreadId} {r : Reported} {rs : List Reported}

theorem apply_of_invalidate (hi : h.invalidate = true) : v.apply mailbox h = ⟨mailbox, mailbox⟩ := by
  rw [apply, if_pos hi]

theorem apply_of_not_invalidate (hi : h.invalidate = false) (mailbox : Finset ThreadId) :
    v.apply mailbox h = ⟨(v.rows \ h.removed) ∪ h.inserted,
      (v.stale ∪ h.updated ∪ h.inserted) ∩ ((v.rows \ h.removed) ∪ h.inserted)⟩ := by
  rw [apply, if_neg (by simp [hi])]

-- A merged hint does what its two hints do one after the other, unless a row that was there comes back
-- with the first and leaves with the second: that row the merged hint forgets.
theorem apply_merge (hi : (a.merge b).invalidate = false) (ha : Disjoint a.inserted a.removed)
    (hb : Disjoint b.inserted b.removed) (stays : ∀ x ∈ v.rows, x ∈ a.inserted → x ∉ b.removed) :
    v.apply mailbox (a.merge b) = (v.apply mailbox' a).apply mailbox b := by
  have ⟨hia, hib, he⟩ := ChangeHint.merge_eq hi
  rw [apply_of_not_invalidate hi, apply_of_not_invalidate hia, apply_of_not_invalidate hib, he,
    ChangeHint.joined]
  rw [Finset.disjoint_left] at ha hb
  have rows : ∀ x, (x ∈ v.rows ∧ x ∉ (a.removed \ b.inserted) ∪ (b.removed \ (a.inserted ∪ b.inserted))) ∨
      x ∈ (a.inserted ∪ b.inserted) \ b.removed ↔
      (((x ∈ v.rows ∧ x ∉ a.removed) ∨ x ∈ a.inserted) ∧ x ∉ b.removed) ∨ x ∈ b.inserted := by
    intro x
    have := stays x
    have := @ha x
    have := @hb x
    simp only [Finset.mem_union, Finset.mem_sdiff]
    tauto
  ext x
  · simpa only [Finset.mem_union, Finset.mem_sdiff] using rows x
  · have rows := rows x
    have ha := @ha x
    have hb := @hb x
    simp only [Finset.mem_union, Finset.mem_sdiff, Finset.mem_inter] at rows ⊢
    grind

theorem rows_apply (h : r.From v.rows) : (v.apply r.mailbox r.hint).rows = r.mailbox := by
  by_cases hi : r.hint.invalidate = true
  case pos => rw [apply_of_invalidate hi]
  case neg =>
    have ⟨_, _, _, _, he⟩ := h.resolve_left hi
    rw [apply_of_not_invalidate (by simpa using hi), he]

theorem stale_apply : (v.apply mailbox h).stale ⊆ (v.apply mailbox h).rows := by
  rw [apply]
  split
  · exact subset_rfl
  · exact Finset.inter_subset_right

-- The view that applies every hint shows what is in the mailbox.
theorem rows_applyEach (hc : Consistent v.rows rs) : (v.applyEach rs).rows = mailboxAfter v.rows rs := by
  induction rs generalizing v
  case nil => rfl
  case cons r rs ih =>
    have rows := rows_apply hc.left
    have rest := hc.right
    rw [← rows] at rest
    exact (ih rest).trans (congrArg (mailboxAfter · rs) rows)

theorem stale_applyEach (hc : Consistent v.rows rs) (hs : v.stale ⊆ v.rows) :
    (v.applyEach rs).stale ⊆ (v.applyEach rs).rows := by
  induction rs generalizing v
  case nil => exact hs
  case cons r rs ih =>
    have rest := hc.right
    rw [← rows_apply hc.left] at rest
    exact ih rest stale_apply

-- Once everything has to be read again, everything has.
theorem applyEach_of_invalidate (hc : Consistent v.rows rs)
    (hi : v.stale = v.rows ∨ ∃ r ∈ rs, r.hint.invalidate = true) :
    (v.applyEach rs).stale = (v.applyEach rs).rows := by
  induction rs generalizing v
  case nil => exact hi.resolve_right (by simp)
  case cons r rs ih =>
    have rest := hc.right
    rw [← rows_apply hc.left] at rest
    refine ih rest ?_
    dsimp only
    by_cases hr : r.hint.invalidate = true
    case pos => rw [apply_of_invalidate hr]; exact .inl rfl
    case neg =>
      obtain hi | ⟨r', hr', hi⟩ := hi
      · left
        rw [apply_of_not_invalidate (by simpa using hr), hi]
        ext x
        simp only [Finset.mem_union, Finset.mem_sdiff, Finset.mem_inter]
        tauto
      · obtain rfl | hr' := List.mem_cons.mp hr'
        · exact absurd hi hr
        · exact .inr ⟨r', hr', hi⟩

end View

-- No thread that was in the mailbox at the start leaves it again once it is back.
def NoneLeavesAgain (mailbox : Finset ThreadId) (rs : List Reported) : Prop :=
  rs.Pairwise fun r r' => ∀ x ∈ mailbox, x ∈ r.hint.inserted → x ∉ r'.hint.removed

-- The ids that hints name.
def idsOf (rs : List Reported) : Finset ThreadId :=
  rs.foldr (fun r ids => r.hint.ids ∪ ids) ∅

-- What is kept of a hint that waits: it names an id once, and those it calls updated are still there.
structure ChangeHint.Tidy (h : ChangeHint) (rows : Finset ThreadId) : Prop where
  inserted : Disjoint h.inserted h.removed
  updated  : Disjoint h.inserted h.updated
  removed  : Disjoint h.updated h.removed
  there    : h.updated ⊆ rows
  gone     : Disjoint h.removed rows

namespace ChangeHint

variable {a b h : ChangeHint} {rows : Finset ThreadId} {r : Reported} {rs : List Reported}

theorem Tidy.names_eq (h : a.Tidy rows) : a.names = a.ids.card := by
  rw [names, ids, Finset.card_union_of_disjoint (Finset.disjoint_union_left.mpr ⟨h.inserted, h.removed⟩),
    Finset.card_union_of_disjoint h.updated]

-- A change that is reported on its own.
theorem tidy_from {v : View} (hr : r.From v.rows) (hi : r.hint.invalidate = false) :
    r.hint.Tidy (v.apply r.mailbox r.hint).rows := by
  have ⟨hins, hupd, hrem, hdis, _⟩ := hr.resolve_left (by simp [hi])
  rw [View.apply_of_not_invalidate hi]
  rw [Finset.disjoint_left] at hins hdis
  refine ⟨?_, ?_, Finset.disjoint_left.mpr hdis, ?_, ?_⟩
  · exact Finset.disjoint_left.mpr fun x hx hr => hins hx (hrem hr)
  · exact Finset.disjoint_left.mpr fun x hx hu => hins hx (hupd hu)
  · intro x hx
    simp [hupd hx, hdis hx]
  · rw [Finset.disjoint_left]
    intro x hx
    have : x ∉ r.hint.inserted := fun hxi => hins hxi (hrem hx)
    simp [hx, this]

theorem Tidy.joined {v : View} (h : a.Tidy v.rows) (hr : r.From v.rows) (hi : r.hint.invalidate = false) :
    (a.joined r.hint).Tidy (v.apply r.mailbox r.hint).rows := by
  have ⟨inserted', updated', removed', _, _⟩ := tidy_from hr hi
  have ⟨hins, hupd, hrem, _, _⟩ := hr.resolve_left (by simp [hi])
  have ⟨inserted, updated, removed, there, gone⟩ := h
  rw [View.apply_of_not_invalidate hi, ChangeHint.joined]
  simp only [Finset.disjoint_left] at hins inserted updated removed gone inserted' updated' removed'
  constructor <;> simp only [Finset.disjoint_left, Finset.subset_iff, Finset.mem_union, Finset.mem_sdiff] <;>
    intro x
  · grind
  · grind
  · grind
  · grind
  · grind

-- Hints that name few ids together do not invalidate when they are merged.
theorem foldl_merge_few {v : View} (h : a.Tidy v.rows) (hi : a.invalidate = false) (hc : Consistent v.rows rs)
    (hr : ∀ r ∈ rs, r.hint.invalidate = false) (few : (a.ids ∪ idsOf rs).card ≤ MAX_HINT_IDS) :
    (rs.foldl (fun h r => h.merge r.hint) a).invalidate = false := by
  induction rs generalizing a v
  case nil => exact hi
  case cons r rs ih =>
    have ⟨hri, hr⟩ := List.forall_mem_cons.mp hr
    have ⟨here, rest⟩ := hc
    rw [← View.rows_apply here] at rest
    have tidy := h.joined here hri
    have sub : (a.joined r.hint).ids ⊆ a.ids ∪ r.hint.ids := joined_ids
    have within : (a.joined r.hint).ids ∪ idsOf rs ⊆ a.ids ∪ idsOf (r :: rs) := by
      have cons : idsOf (r :: rs) = r.hint.ids ∪ idsOf rs := rfl
      rw [cons, ← Finset.union_assoc]
      exact Finset.union_subset_union_left sub
    have few' := (Finset.card_le_card within).trans few
    have merged : a.merge r.hint = a.joined r.hint := by
      rw [merge_of_not_invalidate hi hri, if_neg]
      rw [tidy.names_eq]
      have := Finset.card_le_card (Finset.subset_union_left : (a.joined r.hint).ids ⊆ (a.joined r.hint).ids ∪ idsOf rs)
      omega
    rw [List.foldl_cons, merged]
    exact ih tidy rfl rest hr few'

end ChangeHint

namespace View

variable {v : View} {h : ChangeHint} {r : Reported} {rs : List Reported}

-- What a hint that waits does, merged with those that follow, is what they all do in turn.
theorem apply_foldl_merge {w : View} (hv : w = v.apply mailbox h) (hc : Consistent w.rows rs)
    (hd : Disjoint h.inserted h.removed)
    (stays : ∀ r ∈ rs, ∀ x ∈ v.rows, x ∈ h.inserted → x ∉ r.hint.removed) (later : NoneLeavesAgain v.rows rs)
    (hi : (rs.foldl (fun h r => h.merge r.hint) h).invalidate = false) (mailbox' : Finset ThreadId) :
    v.apply mailbox' (rs.foldl (fun h r => h.merge r.hint) h) = w.applyEach rs := by
  induction rs generalizing h w mailbox
  case nil =>
    rw [hv]
    exact (apply_of_not_invalidate hi _).trans (apply_of_not_invalidate hi _).symm
  case cons r rs ih =>
    have ⟨here, rest⟩ := hc
    have ⟨again, later⟩ := List.pairwise_cons.mp later
    rw [← rows_apply here] at rest
    have hm : (h.merge r.hint).invalidate = false := by
      by_contra hm
      rw [Bool.not_eq_false] at hm
      exact absurd (ChangeHint.foldl_merge_invalidates (.inl hm : _ ∨ ∃ r ∈ rs, _)) (by simpa using hi)
    have ⟨_, hir, he⟩ := ChangeHint.merge_eq hm
    have ⟨hins, _, hrem, _, _⟩ := here.resolve_left (by simp [hir])
    have alone : Disjoint r.hint.inserted r.hint.removed :=
      Finset.disjoint_left.mpr fun x hx hr => Finset.disjoint_left.mp hins hx (hrem hr)
    have next : w.apply r.mailbox r.hint = v.apply r.mailbox (h.merge r.hint) := by
      rw [hv, apply_merge hm hd alone (stays r List.mem_cons_self)]
    refine ih next rest ?_ ?_ later hi <;> dsimp only
    · rw [he, ChangeHint.joined]
      simp only [Finset.disjoint_left] at hd alone ⊢
      intro x
      simp only [Finset.mem_union, Finset.mem_sdiff]
      grind
    · intro r' hr' x hx hxi
      rw [he, ChangeHint.joined, Finset.mem_sdiff, Finset.mem_union] at hxi
      obtain hxi | hxi := hxi.left
      · exact stays r' (List.mem_cons_of_mem _ hr') x hx hxi
      · exact again r' hr' x hx hxi

-- A merged hint leaves the rows that its hints leave in turn, and at least as many to read again.
theorem apply_merged (hv : v.stale ⊆ v.rows) (hc : Consistent v.rows (r :: rs)) (later : NoneLeavesAgain v.rows (r :: rs)) :
    let merged := v.apply (mailboxAfter v.rows (r :: rs)) (rs.foldl (fun h r => h.merge r.hint) r.hint)
    let each   := v.applyEach (r :: rs)
    merged.rows = each.rows ∧ each.stale ⊆ merged.stale ∧
    (((∃ r' ∈ r :: rs, r'.hint.invalidate = true) ∨ (idsOf (r :: rs)).card ≤ MAX_HINT_IDS) → merged = each) := by
  have rows := rows_applyEach hc
  have stale := stale_applyEach hc hv
  by_cases hi : (rs.foldl (fun h r => h.merge r.hint) r.hint).invalidate = true
  case pos =>
    simp only [apply_of_invalidate hi]
    refine ⟨rows.symm, rows ▸ stale, ?_⟩
    rintro (inv | few)
    · have all := applyEach_of_invalidate hc (.inr inv)
      exact View.ext rows.symm (rows.symm.trans all.symm)
    · by_cases inv : ∃ r' ∈ r :: rs, r'.hint.invalidate = true
      case pos =>
        have all := applyEach_of_invalidate hc (.inr inv)
        exact View.ext rows.symm (rows.symm.trans all.symm)
      case neg =>
        have none : ∀ r' ∈ r :: rs, r'.hint.invalidate = false :=
          fun r' hr' => by_contra fun hn => inv ⟨r', hr', by simpa using hn⟩
        have ⟨hri, hrs⟩ := List.forall_mem_cons.mp none
        have ⟨here, rest⟩ := hc
        rw [← rows_apply here] at rest
        rw [ChangeHint.foldl_merge_few (ChangeHint.tidy_from here hri) hri rest hrs few] at hi
        cases hi
  case neg =>
    rw [Bool.not_eq_true] at hi
    have hri : r.hint.invalidate = false := by
      by_contra hn
      rw [Bool.not_eq_false] at hn
      exact absurd (ChangeHint.foldl_merge_invalidates (.inl hn : _ ∨ ∃ r ∈ rs, _)) (by simp [hi])
    have ⟨here, rest⟩ := hc
    have ⟨again, later⟩ := List.pairwise_cons.mp later
    rw [← rows_apply here] at rest
    have tidy := ChangeHint.tidy_from here hri
    have same := apply_foldl_merge rfl rest tidy.inserted again later hi (mailboxAfter v.rows (r :: rs))
    simp only [same]
    exact ⟨rfl, subset_rfl, fun _ => rfl⟩

end View

-- No thread leaves a second time, whenever in the window one starts to look.
def NoneLeavesTwice : Finset ThreadId → List Reported → Prop
  | _, []            => True
  | mailbox, r :: rs => NoneLeavesAgain mailbox (r :: rs) ∧ NoneLeavesTwice r.mailbox rs

-- A way to merge hints that follow one another.
inductive Grouping
  | one (r : Reported)
  | both (earlier later : Grouping)

namespace Grouping

variable {g g' : Grouping} {v : View} {rs rs' : List Reported} {mailbox : Finset ThreadId}

def reported : Grouping → List Reported
  | one r              => [r]
  | both earlier later => earlier.reported ++ later.reported

def hint : Grouping → ChangeHint
  | one r              => r.hint
  | both earlier later => earlier.hint.merge later.hint

theorem hint_inserted (hi : g.hint.invalidate = false) (hx : x ∈ g.hint.inserted) :
    ∃ r ∈ g.reported, x ∈ r.hint.inserted := by
  induction g
  case one r => exact ⟨r, List.mem_singleton_self r, hx⟩
  case both earlier later ih ih' =>
    have ⟨hi₁, hi₂, he⟩ := ChangeHint.merge_eq hi
    rw [hint, he, ChangeHint.joined, Finset.mem_sdiff, Finset.mem_union] at hx
    obtain hx | hx := hx.left
    · exact (ih hi₁ hx).imp fun r hr => ⟨List.mem_append_left _ hr.left, hr.right⟩
    · exact (ih' hi₂ hx).imp fun r hr => ⟨List.mem_append_right _ hr.left, hr.right⟩

theorem hint_removed (hi : g.hint.invalidate = false) (hx : x ∈ g.hint.removed) :
    ∃ r ∈ g.reported, x ∈ r.hint.removed := by
  induction g
  case one r => exact ⟨r, List.mem_singleton_self r, hx⟩
  case both earlier later ih ih' =>
    have ⟨hi₁, hi₂, he⟩ := ChangeHint.merge_eq hi
    rw [hint, he, ChangeHint.joined] at hx
    obtain hx | hx := Finset.mem_union.mp hx
    · exact (ih hi₁ (Finset.mem_sdiff.mp hx).left).imp
        fun r hr => ⟨List.mem_append_left _ hr.left, hr.right⟩
    · exact (ih' hi₂ (Finset.mem_sdiff.mp hx).left).imp
        fun r hr => ⟨List.mem_append_right _ hr.left, hr.right⟩

theorem consistent_append : Consistent mailbox (rs ++ rs') ↔
    Consistent mailbox rs ∧ Consistent (mailboxAfter mailbox rs) rs' := by
  induction rs generalizing mailbox
  case nil          => simp [Consistent, mailboxAfter]
  case cons r rs ih => simp only [List.cons_append, Consistent, ih, and_assoc]; rfl

theorem noneLeavesTwice_append (h : NoneLeavesTwice mailbox (rs ++ rs')) :
    NoneLeavesTwice mailbox rs ∧ NoneLeavesTwice (mailboxAfter mailbox rs) rs' := by
  induction rs generalizing mailbox
  case nil => exact ⟨trivial, h⟩
  case cons r rs ih =>
    have ⟨again, twice⟩ := h
    have ⟨left, right⟩ := ih twice
    exact ⟨⟨again.sublist (List.sublist_append_left (r :: rs) rs'), left⟩, right⟩

theorem noneLeavesAgain (h : NoneLeavesTwice mailbox rs) : NoneLeavesAgain mailbox rs := by
  cases rs
  case nil  => exact .nil
  case cons => exact h.left

theorem disjoint_hint (hc : Consistent mailbox g.reported) (hi : g.hint.invalidate = false) :
    Disjoint g.hint.inserted g.hint.removed := by
  induction g generalizing mailbox
  case one r =>
    have ⟨hins, _, hrem, _, _⟩ := hc.left.resolve_left (ne_true_of_eq_false hi)
    exact Finset.disjoint_left.mpr fun x hx hr => Finset.disjoint_left.mp hins hx (hrem hr)
  case both earlier later ih ih' =>
    have ⟨hi₁, hi₂, he⟩ := ChangeHint.merge_eq hi
    have ⟨hc₁, hc₂⟩ := consistent_append.mp hc
    have h₁ := ih hc₁ hi₁
    have h₂ := ih' hc₂ hi₂
    rw [hint, he, ChangeHint.joined]
    simp only [Finset.disjoint_left, Finset.mem_union, Finset.mem_sdiff] at h₁ h₂ ⊢
    intro x
    have := @h₁ x
    have := @h₂ x
    tauto

-- However hints are grouped, the hint they are merged to does what they do in turn.
theorem apply_hint (hc : Consistent v.rows g.reported) (twice : NoneLeavesTwice v.rows g.reported)
    (hi : g.hint.invalidate = false) (mailbox : Finset ThreadId) :
    v.apply mailbox g.hint = v.applyEach g.reported := by
  induction g generalizing v mailbox
  case one r =>
    exact (View.apply_of_not_invalidate hi mailbox).trans (View.apply_of_not_invalidate hi r.mailbox).symm
  case both earlier later ih ih' =>
    have ⟨hi₁, hi₂, _⟩ := ChangeHint.merge_eq hi
    have ⟨hc₁, hc₂⟩ := consistent_append.mp hc
    have ⟨twice₁, twice₂⟩ := noneLeavesTwice_append twice
    have rows := View.rows_applyEach hc₁
    have stays : ∀ x ∈ v.rows, x ∈ earlier.hint.inserted → x ∉ later.hint.removed := by
      intro x hx hins hrem
      have ⟨r, hr, hins⟩ := hint_inserted hi₁ hins
      have ⟨r', hr', hrem⟩ := hint_removed hi₂ hrem
      exact (List.pairwise_append.mp (noneLeavesAgain twice)).right.right r hr r' hr' x hx hins hrem
    rw [hint, View.apply_merge hi (disjoint_hint hc₁ hi₁) (disjoint_hint hc₂ hi₂) stays,
      ih hc₁ twice₁ hi₁ mailbox, ih' (rows ▸ hc₂) (rows ▸ twice₂) hi₂ mailbox]
    exact List.foldl_append.symm

theorem rows_apply_hint (hc : Consistent v.rows g.reported) (twice : NoneLeavesTwice v.rows g.reported) :
    (v.apply (mailboxAfter v.rows g.reported) g.hint).rows = mailboxAfter v.rows g.reported := by
  by_cases hi : g.hint.invalidate = true
  case pos => rw [View.apply_of_invalidate hi]
  case neg => rw [apply_hint hc twice (by simpa using hi), View.rows_applyEach hc]

theorem apply_grouped (hc : Consistent v.rows rs) (twice : NoneLeavesTwice v.rows rs)
    (hg : g.reported = rs) (hg' : g'.reported = rs) :
    (v.apply (mailboxAfter v.rows rs) g.hint).rows = (v.apply (mailboxAfter v.rows rs) g'.hint).rows ∧
    (g.hint.invalidate = g'.hint.invalidate →
      v.apply (mailboxAfter v.rows rs) g.hint = v.apply (mailboxAfter v.rows rs) g'.hint) := by
  have rows := rows_apply_hint (hg ▸ hc : Consistent v.rows g.reported) (hg ▸ twice)
  have rows' := rows_apply_hint (hg' ▸ hc : Consistent v.rows g'.reported) (hg' ▸ twice)
  rw [hg] at rows
  rw [hg'] at rows'
  refine ⟨rows.trans rows'.symm, fun he => ?_⟩
  cases hi : g.hint.invalidate
  case true => rw [View.apply_of_invalidate hi, View.apply_of_invalidate (he ▸ hi)]
  case false =>
    rw [apply_hint (hg ▸ hc) (hg ▸ twice) hi, apply_hint (hg' ▸ hc) (hg' ▸ twice) (he ▸ hi), hg, hg']

end Grouping

-- The hints that a window holds for one mailbox.
def hintsFor (key : MailboxKey) (events : List (MailboxKey × ChangeHint)) : List ChangeHint :=
  (events.filter (·.1 = key)).map (·.2)

theorem hintsFor_cons (key : MailboxKey) (e : MailboxKey × ChangeHint) (events : List (MailboxKey × ChangeHint)) :
    hintsFor key (e :: events) = if e.1 = key then e.2 :: hintsFor key events else hintsFor key events := by
  by_cases he : e.1 = key <;> simp [hintsFor, he]

-- What is told about a mailbox is made of the hints about it, in order.
theorem flush_eq {events : List (MailboxKey × ChangeHint)} (hh : hintsFor key events = h :: hs) :
    flush events key = some (hs.foldl ChangeHint.merge h) := by
  have one : ∀ (pending : MailboxKey → Option ChangeHint) (e : MailboxKey × ChangeHint),
      dispatch pending e key = if e.1 = key then
        some (match pending key with | some prev => prev.merge e.2 | none => e.2) else pending key := by
    intro pending e
    by_cases he : e.1 = key
    case pos => subst he; rw [if_pos rfl]; exact Function.update_self ..
    case neg => rw [if_neg he]; exact Function.update_of_ne (Ne.symm he) ..
  have waiting : ∀ (events : List (MailboxKey × ChangeHint)) pending h, pending key = some h →
      events.foldl dispatch pending key = some ((hintsFor key events).foldl ChangeHint.merge h) := by
    intro events
    induction events
    case nil => exact fun _ _ hp => hp
    case cons e es ih =>
      intro pending h hp
      rw [List.foldl_cons]
      by_cases he : e.1 = key
      case pos =>
        rw [ih (dispatch pending e) (h.merge e.2) (by rw [one, if_pos he, hp]), hintsFor_cons, if_pos he]
        rfl
      case neg =>
        rw [ih (dispatch pending e) h (by rw [one, if_neg he, hp]), hintsFor_cons, if_neg he]
  rw [flush]
  generalize hn : (fun _ => none : MailboxKey → Option ChangeHint) = pending
  have nothing : pending key = none := by rw [← hn]
  clear hn
  induction events generalizing pending
  case nil => cases hh
  case cons e es ih =>
    rw [List.foldl_cons]
    by_cases he : e.1 = key
    case pos =>
      rw [hintsFor_cons, if_pos he, List.cons.injEq] at hh
      obtain ⟨rfl, rfl⟩ := hh
      exact waiting es (dispatch pending e) e.2 (by rw [one, if_pos he, nothing])
    case neg =>
      rw [hintsFor_cons, if_neg he] at hh
      exact ih hh (dispatch pending e) (by rw [one, if_neg he, nothing])

-- When no thread leaves a second time, the hint that comes out of a window leaves the rows that the
-- window's hints leave in turn. The rows to read again are the same too, or all when there is too much
-- to describe. How the hints are grouped makes no difference to the rows.
theorem flush_applies {v : View} {r : Reported} {rs : List Reported} {events : List (MailboxKey × ChangeHint)}
    (hv : v.stale ⊆ v.rows) (hc : Consistent v.rows (r :: rs))
    (hh : hintsFor key events = (r :: rs).map (·.hint)) :
    (NoneLeavesAgain v.rows (r :: rs) → ∃ merged, flush events key = some merged ∧
      (v.apply (mailboxAfter v.rows (r :: rs)) merged).rows = (v.applyEach (r :: rs)).rows ∧
      (v.applyEach (r :: rs)).stale ⊆ (v.apply (mailboxAfter v.rows (r :: rs)) merged).stale ∧
      (((∃ r' ∈ r :: rs, r'.hint.invalidate = true) ∨ (idsOf (r :: rs)).card ≤ MAX_HINT_IDS) →
        v.apply (mailboxAfter v.rows (r :: rs)) merged = v.applyEach (r :: rs))) ∧
    (NoneLeavesTwice v.rows (r :: rs) → ∀ g g' : Grouping, g.reported = r :: rs → g'.reported = r :: rs →
      (v.apply (mailboxAfter v.rows (r :: rs)) g.hint).rows =
        (v.apply (mailboxAfter v.rows (r :: rs)) g'.hint).rows ∧
      (g.hint.invalidate = g'.hint.invalidate →
        v.apply (mailboxAfter v.rows (r :: rs)) g.hint = v.apply (mailboxAfter v.rows (r :: rs)) g'.hint)) := by
  refine ⟨fun later => ⟨_, flush_eq hh, ?_⟩, fun twice g g' hg hg' => Grouping.apply_grouped hc twice hg hg'⟩
  rw [List.foldl_map]
  exact View.apply_merged hv hc later

-- As many thread ids as one likes.
def manyThreads (n : Nat) : Finset ThreadId :=
  (Finset.range n).image fun i => String.ofList (List.replicate i 't')

theorem manyThreads_injective : Function.Injective fun i => String.ofList (List.replicate i 't') := by
  intro i j h
  simpa using congrArg (fun id => id.toList.length) h

theorem card_manyThreads (n : Nat) : (manyThreads n).card = n := by
  rw [manyThreads, Finset.card_image_of_injective _ manyThreads_injective, Finset.card_range]

-- A mailbox with one thread, into which many come, and then one more.
def arrivals : List Reported := [
  { hint    := { inserted := manyThreads MAX_HINT_IDS }
    mailbox := {"inbox"} ∪ manyThreads MAX_HINT_IDS },
  { hint    := { inserted := {"more"} }
    mailbox := {"inbox"} ∪ manyThreads MAX_HINT_IDS ∪ {"more"} }
]

theorem not_mem_manyThreads {id : ThreadId} (h : 't' ≠ id.toList.headD 't') : id ∉ manyThreads n := by
  simp only [manyThreads, Finset.mem_image, not_exists, not_and]
  rintro i _ rfl
  cases i <;> simp [List.replicate_succ] at h

section Many

variable {ids : Finset ThreadId}

theorem grow_consistent (inbox : "inbox" ∉ ids) (more : "more" ∉ ids) : Consistent {"inbox"} [
    { hint := { inserted := ids },      mailbox := {"inbox"} ∪ ids },
    { hint := { inserted := {"more"} }, mailbox := {"inbox"} ∪ ids ∪ {"more"} }] := by
  refine ⟨.inr ⟨?_, by simp, by simp, by simp, ?_⟩, .inr ⟨?_, by simp, by simp, by simp, ?_⟩, trivial⟩
  · simpa using inbox
  · simp
  · simpa using more
  · simp

theorem grow_invalidates (card : ids.card = MAX_HINT_IDS) (more : "more" ∉ ids) :
    ChangeHint.merge { inserted := ids } { inserted := {"more"} } = .invalidating := by
  rw [ChangeHint.merge_of_not_invalidate rfl rfl, if_pos]
  simp only [ChangeHint.names, ChangeHint.joined, Finset.sdiff_empty, Finset.union_empty, Finset.empty_sdiff,
    Finset.card_empty]
  rw [Finset.card_union_of_disjoint (by simpa using more), card]
  decide

theorem grow_stale (inbox : "inbox" ∉ ids) {rs : List Reported} (hrs : rs = [
    { hint := { inserted := ids },      mailbox := {"inbox"} ∪ ids },
    { hint := { inserted := {"more"} }, mailbox := {"inbox"} ∪ ids ∪ {"more"} }]) :
    (View.apply ⟨{"inbox"}, ∅⟩ (mailboxAfter {"inbox"} rs) .invalidating).stale ≠
      (View.applyEach ⟨{"inbox"}, ∅⟩ rs).stale := by
  intro he
  have all : "inbox" ∈ mailboxAfter {"inbox"} rs := by simp [mailboxAfter, hrs]
  rw [View.apply_of_invalidate rfl] at he
  dsimp only at he
  rw [he] at all
  simp [View.applyEach, hrs, View.apply, inbox] at all

-- Merged the other way, the last two hints say nothing.
theorem grow_not_assoc (card : ids.card = MAX_HINT_IDS) (more : "more" ∉ ids) :
    (ChangeHint.merge { inserted := ids } { inserted := {"more"} }).merge { removed := {"more"} } ≠
      ChangeHint.merge { inserted := ids } (ChangeHint.merge { inserted := {"more"} } { removed := {"more"} }) := by
  intro he
  have late : ChangeHint.merge { inserted := {"more"} } { removed := {"more"} } = {} := by decide
  rw [grow_invalidates card more, ChangeHint.merge_invalidates (.inl rfl), late,
    ChangeHint.merge_of_not_invalidate rfl rfl, if_neg] at he
  · cases congrArg ChangeHint.invalidate he
  · simp [ChangeHint.names, ChangeHint.joined, card]

end Many

theorem inbox_not_mem : "inbox" ∉ manyThreads MAX_HINT_IDS :=
  not_mem_manyThreads (by decide)

theorem more_not_mem : "more" ∉ manyThreads MAX_HINT_IDS :=
  not_mem_manyThreads (by decide)

theorem arrivals_consistent : Consistent {"inbox"} arrivals :=
  grow_consistent inbox_not_mem more_not_mem

-- A thread that leaves, comes back and leaves again.
def leavesTwice : List Reported := [
  { hint := { removed := {"t"} },  mailbox := ∅ },
  { hint := { inserted := {"t"} }, mailbox := {"t"} },
  { hint := { removed := {"t"} },  mailbox := ∅ }
]

-- When there is too much to describe, the consumer reads rows again that no hint named, and hints that
-- are grouped otherwise need not say as much. A row that leaves twice stays in the view.
theorem flush_reads_again :
    (∃ (v : View) (merged : ChangeHint), v.stale ⊆ v.rows ∧ Consistent v.rows arrivals ∧
      flush (arrivals.map fun r => ((none, "INBOX"), r.hint)) (none, "INBOX") = some merged ∧
      (v.apply (mailboxAfter v.rows arrivals) merged).stale ≠ (v.applyEach arrivals).stale) ∧
    (∃ a b c : ChangeHint, (a.merge b).merge c ≠ a.merge (b.merge c)) ∧
    (∃ (v : View) (merged : ChangeHint), v.stale ⊆ v.rows ∧ Consistent v.rows leavesTwice ∧
      flush (leavesTwice.map fun r => ((none, "INBOX"), r.hint)) (none, "INBOX") = some merged ∧
      (v.apply (mailboxAfter v.rows leavesTwice) merged).rows ≠ (v.applyEach leavesTwice).rows) := by
  have many := grow_invalidates (card_manyThreads _) more_not_mem
  refine ⟨?_, ?_, ?_⟩
  · exact ⟨⟨{"inbox"}, ∅⟩, .invalidating, by simp, arrivals_consistent, congrArg some many, grow_stale inbox_not_mem rfl⟩
  · exact ⟨_, _, _, grow_not_assoc (card_manyThreads _) more_not_mem⟩
  · exact ⟨⟨{"t"}, ∅⟩, {}, by simp, by simp [Consistent, leavesTwice, Reported.From], by decide, by decide⟩

-- A thread that comes and goes again within a window, in which another one is read.
def comesAndGoes : List Reported := [
  { hint := { inserted := {"t"} },    mailbox := {"inbox", "t"} },
  { hint := { removed := {"t"} },     mailbox := {"inbox"} },
  { hint := { updated := {"inbox"} }, mailbox := {"inbox"} }
]

theorem flush_applies_cancelled :
    (∃ merged, flush (comesAndGoes.map fun r => ((none, "INBOX"), r.hint)) (none, "INBOX") = some merged ∧
      View.apply ⟨{"inbox"}, ∅⟩ (mailboxAfter {"inbox"} comesAndGoes) merged =
        View.applyEach ⟨{"inbox"}, ∅⟩ comesAndGoes) ∧
    ∀ g g' : Grouping, g.reported = comesAndGoes → g'.reported = comesAndGoes →
      (View.apply ⟨{"inbox"}, ∅⟩ (mailboxAfter {"inbox"} comesAndGoes) g.hint).rows =
        (View.apply ⟨{"inbox"}, ∅⟩ (mailboxAfter {"inbox"} comesAndGoes) g'.hint).rows := by
  have consistent : Consistent {"inbox"} comesAndGoes := by
    simp [Consistent, comesAndGoes, Reported.From]
  have hints : hintsFor (none, "INBOX") (comesAndGoes.map fun r => ((none, "INBOX"), r.hint)) =
      comesAndGoes.map (·.hint) := rfl
  have applies := flush_applies (v := ⟨{"inbox"}, ∅⟩) (by simp) consistent hints
  obtain ⟨merged, flushed, _, _, same⟩ := applies.left (by simp [NoneLeavesAgain])
  refine ⟨⟨merged, flushed, same (.inr (by decide))⟩, fun g g' hg hg' => ?_⟩
  exact (applies.right (by simp [NoneLeavesTwice, NoneLeavesAgain]) g g' hg hg').left

end Kaluta
