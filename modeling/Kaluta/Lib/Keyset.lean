import Mathlib.Data.List.Sort
import Mathlib.Data.Prod.Lex

-- Reading what is ordered by a key page by page: each page begins below the key that the last one ended with.
namespace Keyset

variable {α : Type u} {κ : Type v} [LinearOrder κ] (key : α → κ)

-- The largest key first, and none twice.
def Descending (as : List α) : Prop :=
  as.Pairwise (key · > key ·)

def order (as : List α) : List α :=
  as.insertionSort fun a b => key b ≤ key a

def below (k : κ) (as : List α) : List α :=
  as.filter (key · < k)

-- Of `n + 1` that are read the first `n`, and the key of the last of these if there are more.
def page (n : Nat) (k : κ) (as : List α) : List α × Option κ :=
  let found := (below key k as).take (n + 1)
  (found.take n, if n < found.length then (found.take n).getLast?.map key else none)

variable {key} {as bs : List α} {a b : α} {k k' : κ} {n : Nat}

theorem Descending.below (h : Descending key as) : Descending key (below key k as) :=
  h.filter _

theorem Descending.nodup (h : Descending key as) : as.Nodup :=
  h.imp fun lt eq => absurd (eq ▸ lt) (lt_irrefl _)

theorem Descending.eq_of_perm (h : Descending key as) (h' : Descending key bs) (perm : as.Perm bs) : as = bs :=
  perm.eq_of_pairwise (fun _ _ _ _ lt lt' => absurd lt' (lt_asymm lt)) h h'

theorem perm_order : (order key as).Perm as :=
  List.perm_insertionSort _ _

theorem order_descending (apart : as.Pairwise (key · ≠ key ·)) : Descending key (order key as) := by
  have total : Std.Total fun a b => key b ≤ key a := ⟨fun a b => le_total (key b) (key a)⟩
  have trans : IsTrans α fun a b => key b ≤ key a := ⟨fun _ _ _ le le' => le'.trans le⟩
  have sorted := List.pairwise_insertionSort (fun a b => key b ≤ key a) as
  have perm : (order key as).Perm as := perm_order
  exact sorted.imp₂ (fun _ _ le ne => lt_of_le_of_ne le ne.symm) (perm.symm.pairwise apart fun h => h.symm)

theorem order_filter {p : α → Bool} (apart : as.Pairwise (key · ≠ key ·)) :
    order key (as.filter p) = (order key as).filter p := by
  refine (order_descending (apart.filter p)).eq_of_perm ((order_descending apart).filter p) ?_
  exact perm_order.trans (perm_order.symm.filter p)

-- What comes below all the others stays behind them.
theorem order_append (apart : as.Pairwise (key · ≠ key ·)) (desc : Descending key bs)
    (above : ∀ a ∈ as, ∀ b ∈ bs, key a > key b) : order key (as ++ bs) = order key as ++ bs := by
  have sorted : Descending key (order key as ++ bs) := by
    refine List.pairwise_append.mpr ⟨order_descending apart, desc, fun a ha b hb => ?_⟩
    exact above a (perm_order.mem_iff.mp ha) b hb
  have perm : (order key as ++ bs).Perm (as ++ bs) := perm_order.append_right bs
  have apart' : (as ++ bs).Pairwise (key · ≠ key ·) :=
    perm.pairwise (sorted.imp ne_of_gt) fun h => h.symm
  exact (order_descending apart').eq_of_perm sorted (perm_order.trans perm.symm)

theorem find?_order {p : α → Bool} (apart : as.Pairwise (key · ≠ key ·)) :
    (order key as).find? p = (order key (as.filter p)).head? := by
  rw [order_filter apart, List.head?_filter]

theorem below_last (h : Descending key (as ++ a :: bs)) : Keyset.below key (key a) (as ++ a :: bs) = bs := by
  have ⟨_, rest, before⟩ := List.pairwise_append.mp h
  have none' : as.filter (key · < key a) = [] :=
    List.filter_eq_nil_iff.mpr fun b hb => by simpa using le_of_lt (before b hb a List.mem_cons_self)
  have all : bs.filter (key · < key a) = bs :=
    List.filter_eq_self.mpr fun b hb => by simpa using (List.pairwise_cons.mp rest).left b hb
  rw [Keyset.below, List.filter_append, none', List.nil_append, List.filter_cons_of_neg (by simp), all]

theorem below_below (le : k' ≤ k) : Keyset.below key k' (Keyset.below key k as) = Keyset.below key k' as := by
  rw [Keyset.below, Keyset.below, List.filter_filter, Keyset.below]
  refine List.filter_congr fun a _ => ?_
  simpa using fun lt => lt_of_lt_of_le lt le

theorem page_last (h : (page key n k as).2 = none) (hn : 0 < n) : (page key n k as).1 = below key k as := by
  simp only [page] at h ⊢
  split at h
  case isTrue lt =>
    rw [Option.map_eq_none_iff, List.getLast?_eq_none_iff, List.take_eq_nil_iff] at h
    rcases h with rfl | h
    · cases hn
    · rw [h] at lt
      cases lt
  case isFalse le =>
    rw [List.take_take, List.length_take] at *
    rw [List.take_of_length_le (by omega)]

theorem page_key (h : (page key n k as).2 = some k') : ∃ a ∈ as, key a = k' := by
  simp only [page] at h
  split at h
  case isFalse => cases h
  case isTrue =>
    obtain ⟨a, last, eq⟩ := Option.map_eq_some_iff.mp h
    have mem := List.mem_of_mem_take (List.mem_of_mem_take (List.mem_of_getLast? last))
    exact ⟨a, (List.mem_filter.mp mem).left, eq⟩

-- What a page and all that follows it have.
theorem page_next (desc : Descending key as) (h : (page key n k as).2 = some k') :
    (page key n k as).1 ++ below key k' as = below key k as ∧ (below key k' as).length < (below key k as).length := by
  simp only [page] at h ⊢
  split at h
  case isFalse => cases h
  case isTrue lt =>
    rw [List.take_take, min_eq_left (Nat.le_succ n)] at h ⊢
    obtain ⟨a, last, rfl⟩ := Option.map_eq_some_iff.mp h
    obtain ⟨front, eq⟩ := List.getLast?_eq_some_iff.mp last
    have found : below key k as = front ++ a :: (below key k as).drop n := by
      rw [List.append_cons, ← eq, List.take_append_drop]
    have rest : below key (key a) as = (below key k as).drop n := by
      have mem : a ∈ below key k as := found ▸ List.mem_append_right _ List.mem_cons_self
      have lt : key a < k := by simpa using (List.mem_filter.mp mem).right
      rw [← below_below (le_of_lt lt)]
      have := desc.below (k := k)
      rw [found] at this
      calc below key (key a) (below key k as)
        _ = below key (key a) (front ++ a :: (below key k as).drop n) := congrArg _ found
        _ = (below key k as).drop n                                  := below_last this
    refine ⟨by rw [rest, List.take_append_drop], ?_⟩
    have length := congrArg List.length found
    rw [List.length_append, List.length_cons] at length
    rw [rest]
    omega

theorem Descending.eq_of_key_eq (h : Descending key as) (ha : a ∈ as) (hb : b ∈ as) (eq : key a = key b) : a = b := by
  have apart : (as.map key).Nodup := List.pairwise_map.mpr (h.imp ne_of_gt)
  exact List.inj_on_of_nodup_map apart ha hb eq

theorem page_sublist : (page key n k as).1.Sublist (Keyset.below key k as) :=
  (List.take_sublist _ _).trans (List.take_sublist _ _)

theorem mem_page (h : a ∈ (page key n k as).1) : a ∈ as ∧ key a < k := by
  have := List.mem_filter.mp (page_sublist.subset h)
  exact ⟨this.1, of_decide_eq_true this.2⟩

-- Where a next page begins, between this one and what this one leaves.
theorem page_between (desc : Descending key as) (h : (page key n k as).2 = some k') :
    k' < k ∧ (∀ a ∈ (page key n k as).1, k' ≤ key a) ∧ ∀ a ∈ as, key a < k → a ∈ (page key n k as).1 ∨ key a < k' := by
  obtain ⟨split, less⟩ := page_next desc h
  refine ⟨?_, fun a mem => ?_, fun a mem lt => ?_⟩
  · by_contra le
    have all : Keyset.below key k (Keyset.below key k' as) = Keyset.below key k as := below_below (not_lt.mp le)
    rw [← all] at less
    exact absurd less (not_lt.mpr (List.length_filter_le _ _))
  · by_contra lt
    have twice : ((page key n k as).1 ++ Keyset.below key k' as).Nodup := split ▸ desc.below.nodup
    have under : a ∈ Keyset.below key k' as := List.mem_filter.mpr ⟨(mem_page mem).1, decide_eq_true (not_le.mp lt)⟩
    exact (List.nodup_append.mp twice).2.2 a mem a under rfl
  · have there : a ∈ Keyset.below key k as := List.mem_filter.mpr ⟨mem, decide_eq_true lt⟩
    rw [← split] at there
    rcases List.mem_append.mp there with here | later
    · exact .inl here
    · exact .inr (of_decide_eq_true (List.mem_filter.mp later).2)

section Follow

variable {σ : Type w} {β γ ε : Type*}

-- The pages that are read by following cursors, each of what is there by then.
inductive Follows (read : σ → Option γ → Except ε (List β × Option γ)) : Option γ → List (σ × List β) → Prop
  | last (h : read s c = .ok (rows, none)) : Follows read c [(s, rows)]
  | next (h : read s c = .ok (rows, some c')) : Follows read (some c') pages → Follows read c ((s, rows) :: pages)

-- A reader of pages, whose cursors say where the next one begins.
structure Reads (key : α → κ) (size : σ → Nat) (rows : σ → List α) (shown : σ → α → β) (begins : Option γ → κ → Prop)
    (read : σ → Option γ → Except ε (List β × Option γ)) : Prop where
  positive   : ∀ s, 0 < size s
  descending : ∀ s, Descending key (rows s)
  page       : ∀ s c k, begins c k → ∃ next,
    read s c = .ok ((page key (size s) k (rows s)).1.map (shown s), next) ∧
      Option.Rel (fun c' k' => begins (some c') k') next (page key (size s) k (rows s)).2

variable {size : σ → Nat} {rows : σ → List α} {shown : σ → α → β} {begins : Option γ → κ → Prop}
variable {read : σ → Option γ → Except ε (List β × Option γ)} {c : Option γ} {pages : List (σ × List β)} {s : σ}

-- What pages show: each row is there when its page is read, none comes twice, and a key that is there all along is
-- not missed.
structure Shows (key : α → κ) (rows : σ → List α) (k : κ) (items : List (σ × List α)) : Prop where
  there      : ∀ p ∈ items, ∀ a ∈ p.2, a ∈ rows p.1
  descending : Descending key (items.flatMap Prod.snd)
  below      : ∀ a ∈ items.flatMap Prod.snd, key a < k
  visited    : ∀ k' < k, (∀ p ∈ items, ∃ a ∈ rows p.1, key a = k') → ∃ a ∈ items.flatMap Prod.snd, key a = k'

theorem Shows.single (desc : Descending key (rows s)) (hn : 0 < n) (last : (page key n k (rows s)).2 = none) :
    Shows key rows k [(s, (page key n k (rows s)).1)] := by
  have all := page_last last hn
  have flat : [(s, (page key n k (rows s)).1)].flatMap Prod.snd = (page key n k (rows s)).1 := by
    rw [List.flatMap_cons, List.flatMap_nil, List.append_nil]
  refine ⟨fun p mem a ha => ?_, ?_, fun a ha => ?_, fun k' lt always => ?_⟩
  · obtain rfl := List.mem_singleton.mp mem
    exact (mem_page ha).1
  · rw [flat, all]
    exact desc.below
  · exact (mem_page (flat ▸ ha)).2
  · obtain ⟨a, mem, rfl⟩ := always _ (List.mem_singleton_self _)
    refine ⟨a, ?_, rfl⟩
    rw [flat, all]
    exact List.mem_filter.mpr ⟨mem, decide_eq_true lt⟩

theorem Shows.cons {items : List (σ × List α)} (desc : Descending key (rows s))
    (next : (page key n k (rows s)).2 = some k') (rest : Shows key rows k' items) :
    Shows key rows k ((s, (page key n k (rows s)).1) :: items) := by
  obtain ⟨lt, above, covers⟩ := page_between desc next
  refine ⟨fun p mem a ha => ?_, ?_, fun a ha => ?_, fun k₀ lt₀ always => ?_⟩
  · rcases List.mem_cons.mp mem with rfl | mem
    · exact (mem_page ha).1
    · exact rest.there p mem a ha
  · rw [List.flatMap_cons]
    refine List.pairwise_append.mpr ⟨desc.below.sublist page_sublist, rest.descending, fun a ha b hb => ?_⟩
    exact lt_of_lt_of_le (rest.below b hb) (above a ha)
  · rw [List.flatMap_cons, List.mem_append] at ha
    rcases ha with here | later
    · exact (mem_page here).2
    · exact (rest.below a later).trans lt
  · obtain ⟨a, mem, rfl⟩ := always _ List.mem_cons_self
    rw [List.flatMap_cons]
    rcases covers a mem lt₀ with here | later
    · exact ⟨a, List.mem_append_left _ here, rfl⟩
    · obtain ⟨b, hb, eq⟩ := rest.visited _ later fun p hp => always p (List.mem_cons_of_mem _ hp)
      exact ⟨b, List.mem_append_right _ hb, eq⟩

theorem Follows.shows (reads : Reads key size rows shown begins read) (hc : begins c k) (h : Follows read c pages) :
    ∃ items, pages = items.map (fun p => (p.1, p.2.map (shown p.1))) ∧ Shows key rows k items := by
  induction h generalizing k
  case last s c rows' h =>
    obtain ⟨next, read', begins'⟩ := reads.page s c k hc
    obtain ⟨rfl, rfl⟩ := Prod.mk.inj (Except.ok.inj (h.symm.trans read'))
    refine ⟨[(s, _)], rfl, .single (reads.descending s) (reads.positive s) ?_⟩
    generalize (page key (size s) k (rows s)).2 = next at begins'
    cases begins'
    rfl
  case next s c rows' c' pages h _ ih =>
    obtain ⟨next, read', begins'⟩ := reads.page s c k hc
    obtain ⟨rfl, rfl⟩ := Prod.mk.inj (Except.ok.inj (h.symm.trans read'))
    generalize there : (page key (size s) k (rows s)).2 = next at begins'
    cases begins' with | some begins' => ?_
    obtain ⟨items, rfl, rest⟩ := ih begins'
    exact ⟨(s, _) :: items, rfl, rest.cons (reads.descending s) there⟩

-- While nothing changes, all that there is, in order.
theorem Shows.all {items : List (σ × List α)} (desc : Descending key (rows s)) (shows : Shows key rows k items)
    (same : ∀ p ∈ items, p.1 = s) : items.flatMap Prod.snd = Keyset.below key k (rows s) := by
  have mem (a : α) : a ∈ items.flatMap Prod.snd ↔ a ∈ Keyset.below key k (rows s) := by
    constructor
    · intro ha
      obtain ⟨p, hp, hpa⟩ := List.mem_flatMap.mp ha
      exact List.mem_filter.mpr ⟨same p hp ▸ shows.there p hp a hpa, decide_eq_true (shows.below a ha)⟩
    · intro ha
      obtain ⟨there, lt⟩ := List.mem_filter.mp ha
      obtain ⟨b, hb, eq⟩ := shows.visited (key a) (of_decide_eq_true lt) fun p hp => ⟨a, same p hp ▸ there, rfl⟩
      obtain ⟨p, hp, hpb⟩ := List.mem_flatMap.mp hb
      have there' : b ∈ rows s := same p hp ▸ shows.there p hp b hpb
      exact desc.eq_of_key_eq there' there eq ▸ hb
  refine shows.descending.eq_of_perm desc.below ?_
  exact (List.perm_ext_iff_of_nodup shows.descending.nodup desc.below.nodup).mpr mem

-- While nothing changes, the cursors come to an end.
theorem follows_exists (reads : Reads key size rows shown begins read) (s : σ) (hc : begins c k) :
    ∃ pages, Follows read c pages ∧ ∀ p ∈ pages, p.1 = s := by
  generalize eq : (Keyset.below key k (rows s)).length = left
  induction left using Nat.strong_induction_on generalizing c k
  case h left ih =>
    obtain ⟨next, read', begins'⟩ := reads.page s c k hc
    generalize there : (page key (size s) k (rows s)).2 = next' at begins'
    cases begins'
    case none         => exact ⟨_, .last read', fun p hp => congrArg Prod.fst (List.mem_singleton.mp hp)⟩
    case some begins' =>
      obtain ⟨-, less⟩ := page_next (reads.descending s) there
      obtain ⟨pages, rest, same⟩ := ih _ (eq ▸ less) begins' rfl
      refine ⟨_, .next read' rest, fun p hp => ?_⟩
      rcases List.mem_cons.mp hp with rfl | hp
      · rfl
      · exact same p hp

end Follow

end Keyset
