import Mathlib.Order.CompleteBooleanAlgebra
import Mathlib.Order.CompletePartialOrder
import Kaluta.Imap.Reads

namespace Kaluta.Imap

open Attempt
open Provider (ProviderError)

section Fetched

variable {ω : Type} [Preorder ω] [Mail] {source : ImapBackfill ω} {m m' : Mem ω}

section Once

variable {owner : Folder → UInt32 → Option UInt64}

-- A UID stands for one message for good, and an answer has only messages asked for, each once.
structure Honest (source : ImapBackfill ω) (owner : Folder → UInt32 → Option UInt64) : Prop where
  scan  : (source.server.scan (some f)).run w = (.ok answers, w') → attrs ∈ answers → place f attrs = some (k, l) →
    owner f l.uid = some k
  asked : (source.server.bodies (some f) uids).run w = (.ok answers, w') → k ∈ answers.filterMap msgid →
    ∃ u ∈ uids, owner f u = some k
  once  : (source.server.bodies (some f) uids).run w = (.ok answers, w') → (answers.filterMap msgid).Nodup

-- Where the map puts a message, that message was.
def Placed (owner : Folder → UInt32 → Option UInt64) (map : UInt64 → Option Located) : Prop :=
  ∀ k l, map k = some l → owner l.folder l.uid = some k

omit [Mail] in
theorem Placed.orInsert {map : UInt64 → Option Located} (h : Placed owner map)
    (found : owner e.2.folder e.2.uid = some e.1) : Placed owner (orInsert map e) := by
  intro k l hl
  rw [Imap.orInsert] at hl
  split at hl
  case isFalse => exact h k l hl
  case isTrue  =>
    by_cases eq : k = e.1
    case neg => exact h k l (by rwa [Function.update_of_ne eq] at hl)
    case pos =>
      rw [eq, Function.update_self, Option.some.injEq] at hl
      rw [eq, ← hl, found]

omit [Mail] in
theorem place_folder (h : place f attrs = some e) : e.2.folder = f := by
  simp only [place, Option.bind_eq_bind, Option.bind_eq_some_iff] at h
  obtain ⟨_, _, _, _, h⟩ := h
  cases h
  rfl

theorem scanFolder_placed (honest : Honest source owner) (h : (source.scanFolder f).exec m = (.ok found, m')) :
    ∀ e ∈ found, owner e.2.folder e.2.uid = some e.1 := by
  rw [ImapBackfill.scanFolder, bind_eq_ok] at h
  have ⟨opened, m₁, hOpen, h⟩ := h
  cases opened
  case false =>
    rw [if_neg Bool.false_ne_true] at h
    rw [← (pure_eq_ok.mp h).left]
    exact fun _ he => absurd he List.not_mem_nil
  case true =>
    rw [if_pos rfl] at h
    have ⟨_, _, hg, h⟩ := bind_eq_ok.mp h
    cases hg
    have ⟨answers, m₂, ask, h⟩ := bind_eq_ok.mp h
    rw [orNetwork_eq_ok, openFolder_selects hOpen] at ask
    have ⟨w, run, _⟩ := Op.call_eq_ok.mp ask
    rw [← (pure_eq_ok.mp h).left]
    intro e he
    have ⟨attrs, mem, placed⟩ := List.mem_filterMap.mp he
    rw [place_folder placed]
    exact honest.scan run mem placed

theorem Stable.placed (honest : Honest source owner) : Stable source (Placed owner) where
  reload h := by
    refine List.foldl_preserves (fun e he p => p.orInsert ?_) fun _ _ h => nomatch h
    have ⟨found, hf, he⟩ := List.mem_flatten.mp he
    have ⟨f, _, _, _, _, run, _⟩ := (mapM_eq_ok (source.scanFolder_follows (P := fun _ => True)) h).exists_left hf
    exact scanFolder_placed honest run e he
  forget := by
    intro map k h k' l hl
    by_cases eq : k' = k
    case neg => exact h k' l (by rwa [Function.update_of_ne eq] at hl)
    case pos =>
      rw [eq, Function.update_self] at hl
      cases hl

theorem countP_toFetched_le (answers : List Attributes) :
    (answers.filterMap (toFetched · labels f)).countP (key ·.id = .inl k) ≤ (answers.filterMap msgid).count k := by
  induction answers
  case nil => exact le_rfl
  case cons attrs answers ih =>
    rcases hm : toFetched attrs labels f with _ | read
    case none =>
      rw [List.filterMap_cons, hm]
      exact ih.trans (List.Sublist.count_le _ ((List.sublist_cons_self _ _).filterMap _))
    case some =>
      have ⟨k', hk, hid, _⟩ := toFetched_eq_some hm
      simp only [List.filterMap_cons, hm, hk, List.countP_cons, List.count_cons, hid, key_messageId, Sum.inl.injEq,
        decide_eq_true_eq, beq_iff_eq]
      omega

theorem countP_chunk_le (honest : Honest source owner) (answered : Answered source v v' f uids answers) :
    (answers.filterMap (toFetched · labels f)).countP (key ·.id = .inl k) ≤ uids.countP (owner f · = some k) := by
  have ⟨w, w', _, run, _⟩ := answered
  refine (countP_toFetched_le answers).trans ?_
  by_cases mem : k ∈ answers.filterMap msgid
  case neg => simp [List.count_eq_zero_of_not_mem mem]
  case pos =>
    have ⟨u, hu, owned⟩ := honest.asked run mem
    rw [List.count_eq_one_of_mem (honest.once run) mem]
    exact List.countP_pos_iff.mpr ⟨u, hu, by simpa using owned⟩

theorem countP_fetchFolder_le (honest : Honest source owner) (h : (source.fetchFolder (f, uids)).exec m = (.ok out, m')) :
    out.countP (key ·.id = .inl k) ≤ uids.countP (owner f · = some k) := by
  obtain ⟨asked, outs, sub, rfl, reads⟩ := fetchFolder_eq_ok h
  calc outs.flatten.countP (key ·.id = .inl k)
    _ ≤ (asked.map (·.countP (owner f · = some k))).sum :=
      (reads.imp fun _ _ ⟨_, answered, eq⟩ => eq ▸ countP_chunk_le honest answered).countP_flatten_le
    _ = asked.flatten.countP (owner f · = some k) := List.countP_flatten.symm
    _ ≤ uids.countP (owner f · = some k)          := sub.countP_le

omit [Mail] in
theorem sum_byFolder (q : Folder → UInt32 → Bool) (wanted : List (UInt64 × Located)) :
    ((byFolder wanted).map fun a => a.2.countP (q a.1)).sum = wanted.countP fun e => q e.2.folder e.2.uid := by
  have nonempty (l : List (Folder × List UInt32)) :
      ((l.filter (·.2 ≠ [])).map fun a => a.2.countP (q a.1)).sum = (l.map fun a => a.2.countP (q a.1)).sum := by
    induction l
    case nil => rfl
    case cons e l ih =>
      by_cases empty : e.2 = []
      case pos => simpa [empty] using ih
      case neg => simpa [empty] using ih
  rw [byFolder, nonempty]
  induction wanted
  case nil => rfl
  case cons e wanted ih =>
    simp only [Folder.ALL, List.map_cons, List.map_nil, List.sum_cons, List.sum_nil, List.countP_cons,
      List.filter_cons] at ih ⊢
    cases e.2.folder
    all_goals
      simp [List.countP_cons] at ih ⊢
      omega

theorem countP_fetchImap_le (honest : Honest source owner) (h : (source.fetchImap wanted).exec m = (.ok out, m'))
    (placed : ∀ e ∈ wanted, owner e.2.folder e.2.uid = some e.1) :
    out.countP (key ·.id = .inl k) ≤ wanted.countP (·.1 = k) := by
  obtain ⟨outs, rfl, reads⟩ := fetchImap_eq_ok h
  calc outs.flatten.countP (key ·.id = .inl k)
    _ ≤ ((byFolder wanted).map fun a => a.2.countP (owner a.1 · = some k)).sum :=
      (reads.imp fun _ _ ⟨_, _, _, run, _⟩ => countP_fetchFolder_le honest run).countP_flatten_le
    _ = wanted.countP fun e => owner e.2.folder e.2.uid = some k :=
      sum_byFolder (fun f u => owner f u = some k) wanted
    _ = wanted.countP (·.1 = k) :=
      List.countP_congr fun e he => by simp [placed e he]

-- The API answers about the message it is asked for.
def Apt (source : ImapBackfill ω) : Prop :=
  ∀ {id w f w'}, (source.server.getMessage id).run w = (.ok (some f), w') → key f.id = key id

theorem countP_told_le (apt : Apt source) (told : List.Forall₂ (Told source v v') ids found) :
    found.reduceOption.countP (key ·.id = k) ≤ ids.countP (key · = k) := by
  induction told
  case nil => exact le_rfl
  case cons id answer ids found head _ ih =>
    rw [List.countP_cons]
    cases answer
    case none   => exact ih.trans (Nat.le_add_right _ _)
    case some f =>
      have ⟨_, _, _, run, _⟩ := head
      rw [List.reduceOption_cons_of_some, List.countP_cons, apt run]
      omega

theorem fetch_countP_le (apt : Apt source) (honest : Honest source owner) (placed : Placed owner m.map)
    (h : (source.fetch ids).exec m = (.ok out, m')) (k : Key) :
    out.countP (key ·.id = k) ≤ ids.countP (key · = k) := by
  obtain ⟨m₁, m₂, m₃, got, more, before, read, _, rest, rfl⟩ := fetch_eq_ok (.placed honest) h
  have ⟨found, perm, told⟩ := fetchMessages_eq_ok rest
  have here e (he : e ∈ viaImap m₁.map source.config.maxMessageBytes ids) := before.keeps placed _ _ (mem_viaImap he)
  have split := @countP_viaImap_add_viaRest m₁.map source.config.maxMessageBytes ids k
  have api := countP_told_le (k := k) apt told
  rw [List.countP_append, List.countP_map] at api
  rw [List.countP_append, perm.countP_eq]
  cases k
  case inr id =>
    have none : got.countP (key ·.id = .inr id) = 0 := List.countP_eq_zero.mpr fun r hr => by
      have ⟨k, hid⟩ := fetchImap_id read hr
      simp [hid]
    have stale : (stale (viaImap m₁.map source.config.maxMessageBytes ids) got).countP
        ((key · = .inr id) ∘ messageId) = 0 := List.countP_eq_zero.mpr fun k _ => by simp
    omega
  case inl k =>
    have imap := countP_fetchImap_le (k := k) honest read here
    simp only [Sum.inl.injEq] at split
    -- What IMAP returned is not asked of the API.
    by_cases returned : messageId k ∈ got.map (·.id)
    case pos =>
      have stale : (stale (viaImap m₁.map source.config.maxMessageBytes ids) got).countP
          ((key · = .inl k) ∘ messageId) = 0 := List.countP_eq_zero.mpr fun k' hk' => by
        have gone := (List.mem_filter.mp hk').right
        simp only [decide_eq_true_eq] at gone
        simp only [Function.comp_apply, key_messageId, Sum.inl.injEq, decide_eq_true_eq]
        exact fun eq => gone (eq ▸ returned)
      omega
    case neg =>
      have none : got.countP (key ·.id = .inl k) = 0 := List.countP_eq_zero.mpr fun r hr => by
        have ⟨k', hid⟩ := fetchImap_id read hr
        simp only [hid, key_messageId, Sum.inl.injEq, decide_eq_true_eq]
        exact fun eq => returned (List.mem_map.mpr ⟨r, hr, eq ▸ hid⟩)
      have stale : (stale (viaImap m₁.map source.config.maxMessageBytes ids) got).countP
          ((key · = .inl k) ∘ messageId) ≤ (viaImap m₁.map source.config.maxMessageBytes ids).countP (·.1 = k) := by
        refine List.filter_sublist.countP_le.trans ?_
        rw [List.countP_map]
        exact (List.countP_congr fun e _ => by simp).le
      omega

end Once

section Present

variable {present : ω → Key → Prop}

-- The API leaves out what is gone, and what is gone stays gone.
structure Lasting (source : ImapBackfill ω) (present : ω → Key → Prop) : Prop where
  missing {id : MessageId} : (source.server.getMessage id).run w = (.ok none, w') → ¬present w' (key id)
  gone : w ≤ w' → present w' k → present w k

variable {id : MessageId}

theorem told_of_present (lasting : Lasting source present) (apt : Apt source)
    (told : List.Forall₂ (Told source v v') ids found) (mem : id ∈ ids) (still : present v' (key id)) :
    ∃ f ∈ found.reduceOption, key f.id = key id := by
  have ⟨answer, ha, w, w', _, run, after⟩ := told.exists_right mem
  cases answer
  case none   => exact absurd (lasting.gone after still) (lasting.missing run)
  case some f => exact ⟨f, List.reduceOption_mem_iff.mpr ha, apt run⟩

theorem fetch_present (lasting : Lasting source present) (apt : Apt source)
    (h : (source.fetch ids).exec m = (.ok out, m')) (mem : id ∈ ids) (still : present m'.world (key id)) :
    ∃ f ∈ out, key f.id = key id := by
  obtain ⟨m₁, m₂, m₃, got, more, _, read, _, rest, rfl⟩ := fetch_eq_ok (.trivial source) h
  have ⟨found, perm, told⟩ := fetchMessages_eq_ok rest
  -- One that the API is asked for, under any id.
  have asked {id'} (mem : id' ∈ viaRest m₁.map source.config.maxMessageBytes ids ++
      (stale (viaImap m₁.map source.config.maxMessageBytes ids) got).map messageId) (same : key id' = key id) :
      ∃ f ∈ got ++ more, key f.id = key id := by
    have ⟨f, hf, eq⟩ := told_of_present lasting apt told mem (same ▸ still)
    exact ⟨f, List.mem_append_right _ (perm.mem_iff.mpr hf), eq.trans same⟩
  rcases @mem_viaImap_or_viaRest m₁.map source.config.maxMessageBytes id ids mem with ⟨e, he, hk⟩ | rest
  case inr => exact asked (List.mem_append_left _ rest) rfl
  case inl =>
    have same : key (messageId e.1) = key id := by rw [key_messageId, hk]
    by_cases returned : messageId e.1 ∈ got.map (·.id)
    case pos =>
      have ⟨f, hf, hid⟩ := List.mem_map.mp returned
      exact ⟨f, List.mem_append_left _ hf, hid ▸ same⟩
    case neg =>
      refine asked (List.mem_append_right _ (List.mem_map_of_mem ?_)) same
      exact List.mem_filter.mpr ⟨List.mem_map_of_mem he, by simpa using returned⟩

end Present

-- Over IMAP a message's labels are shown as they are at that moment, and the label list is right in what it knows.
def Truthful (source : ImapBackfill ω) (api : ω → UInt64 → List LabelId) (called : ω → LabelId → Option String) : Prop :=
  ∀ {f uids w answers w' attrs k}, (source.server.bodies (some f) uids).run w = (.ok answers, w') → attrs ∈ answers →
    msgid attrs = some k →
    ∃ v, w ≤ v ∧ v ≤ w' ∧ Describes f (api v k) (called v) attrs ∧ Naming source.labels (called v)

theorem fetchImap_labels {api : ω → UInt64 → List LabelId} (truthful : Truthful source api called)
    (h : (source.fetchImap wanted).exec m = (.ok out, m')) (hr : r ∈ out) :
    ∃ k v, r.id = messageId k ∧ m.world ≤ v ∧ v ≤ m'.world ∧
      ∀ l, l ∈ r.labelIds ↔ l ∈ api v k ∧ l ∉ PRIMARY :: CATEGORIES ∧ Listed source.labels (called v) l := by
  have ⟨f, uids, answers, attrs, ⟨w, w', before, run, after⟩, mem, read⟩ := fetchImap_read h hr
  have ⟨k, hk, hid, labels⟩ := toFetched_eq_some read
  have ⟨v, hw, hw', describes, naming⟩ := truthful run mem hk
  exact ⟨k, v, hid, before.trans hw, hw'.trans after, fun l => labels ▸ describes.mem_labelIds naming⟩

theorem ImapBackfill.fetch_returned (apt : Apt source) (h : (source.fetch ids).exec m = (.ok out, m')) :
    (∀ present, Lasting source present → ∀ id ∈ ids, present m'.world (key id) → ∃ r ∈ out, key r.id = key id) ∧
    (∀ owner, Honest source owner → Placed owner m.map →
      ∀ k, out.countP (key ·.id = k) ≤ ids.countP (key · = k)) ∧
    ∃ got more, out = got ++ more ∧ (∀ r ∈ more, ∃ id, Told source m.world m'.world id (some r)) ∧
      ∀ api called, Truthful source api called → ∀ r ∈ got, ∃ k v, r.id = messageId k ∧ m.world ≤ v ∧ v ≤ m'.world ∧
        ∀ l, l ∈ r.labelIds ↔ l ∈ api v k ∧ l ∉ PRIMARY :: CATEGORIES ∧ Listed source.labels (called v) l := by
  refine ⟨fun _ lasting id => fetch_present lasting apt h, fun _ honest placed => fetch_countP_le apt honest placed h, ?_⟩
  obtain ⟨m₁, m₂, m₃, got, more, before, read, between, rest, rfl⟩ := fetch_eq_ok (.trivial source) h
  have reading := (fetchImap_follows (.trivial source) _).of_ok read
  have ⟨found, perm, told⟩ := fetchMessages_eq_ok rest
  have after := (source.fetchMessages_follows (P := fun _ => True) _).of_ok rest
  refine ⟨got, more, rfl, fun r hr => ?_, fun api called truthful r hr => ?_⟩
  · have ⟨id, _, w, w', hw, run, hw'⟩ := told.exists_left (List.reduceOption_mem_iff.mp (perm.mem_iff.mp hr))
    exact ⟨id, w, w', before.later.trans (reading.later.trans (between.later.trans hw)), run, hw'⟩
  · have ⟨k, v, hid, hv, hv', labels⟩ := fetchImap_labels truthful read hr
    exact ⟨k, v, hid, before.later.trans hv, hv'.trans (between.later.trans after.later), labels⟩

end Fetched

@[reducible]
def plain : Mail where
  Headers             := Unit
  date _              := none
  parse raw           := if raw = [] then none else some { headers := (), text := some "Hi", html := none, attachments := [] }
  parseInternalDate _ := none

attribute [local instance] plain

def answer (r : Except ProviderError α) : Op Unit α where
  run _   := (r, ())
  later _ := le_rfl

-- What the API says of a promotion in the Inbox.
def promotion : FetchedMessage where
  id           := "1f"
  threadId     := "1e"
  labelIds     := ["CATEGORY_PROMOTIONS", "INBOX", "Label_5"]
  snippet      := "Hi"
  internalDate := 0
  sizeEstimate := 2
  headers      := ()
  body         := some { text := some "Hi", html := none, attachments := [] }

-- And what IMAP says of it.
def shown : Attributes :=
  [.uid 7, .gmailMsgId 31, .gmailThrId 30, .gmailLabels ["\\\\Inbox", "Clients \\\"A\\\""], .flags ["\\Seen"],
    .bodySection false (some [72, 105])]

def gmail : ImapBackfill Unit where
  config := { maxMessageBytes := 2097152, dailyBudgetBytes := 2097152000, batch := 200, refusalLasts := 3600000 }
  labels name := if name = "Clients \"A\"" then some "Label_5" else none
  others _ := []
  server := {
    now _ := 1
    login := answer (.ok true)
    invalidate := answer (.ok ())
    examine f := answer (.ok (f = .allMail))
    scan f := answer (.ok (if f = some .allMail then [[.uid 7, .gmailMsgId 31, .rfc822Size 100]] else []))
    bodies f uids := answer (.ok (if f = some .allMail ∧ 7 ∈ uids then [shown] else []))
    getMessage id := answer (.ok (if key id = .inl 31 then some promotion else none))
  }

def start : Mem Unit where
  connected  := false
  selected   := none
  map _      := none
  refusedAt  := 0
  day        := 0
  bytesToday := 0
  world      := ()

def owns (f : Folder) (u : UInt32) : Option UInt64 :=
  if f = .allMail ∧ u = 7 then some 31 else none

open SystemLabels in
def names : List (LabelId × String) :=
  [(INBOX, "\\Inbox"), (SENT, "\\Sent"), (IMPORTANT, "\\Important"), (STARRED, "\\Starred"), (DRAFT, "\\Draft"),
   (SPAM, "\\Spam"), (TRASH, "\\Trash"), ("Label_5", "Clients \"A\"")]

theorem apt_gmail : Apt gmail := by
  intro id w f w' run
  have ⟨asked, eq⟩ : key id = .inl 31 ∧ promotion = f := by
    simpa [gmail, answer] using run
  rw [asked, ← eq]
  decide

theorem lasting_gmail : Lasting gmail fun _ k => k = .inl 31 where
  missing run := by simpa [gmail, answer] using run
  gone _ h := h

theorem honest_gmail : Honest gmail owns where
  scan {f w answers w' attrs k l} run mem placed := by
    simp only [gmail, answer, Prod.mk.injEq, Except.ok.injEq, Option.some.injEq] at run
    obtain ⟨rfl, -⟩ := run
    split at mem
    case isFalse => cases mem
    case isTrue allMail =>
      obtain rfl := List.mem_singleton.mp mem
      cases placed
      rw [allMail]
      rfl
  asked {f uids w answers w' k} run mem := by
    simp only [gmail, answer, Prod.mk.injEq, Except.ok.injEq, Option.some.injEq] at run
    obtain ⟨rfl, -⟩ := run
    split at mem
    case isFalse => cases mem
    case isTrue here =>
      obtain rfl := List.mem_singleton.mp mem
      exact ⟨7, here.right, if_pos ⟨here.left, rfl⟩⟩
  once {f uids w answers w'} run := by
    simp only [gmail, answer, Prod.mk.injEq, Except.ok.injEq, Option.some.injEq] at run
    obtain ⟨rfl, -⟩ := run
    split
    case isTrue  => exact List.nodup_singleton 31
    case isFalse => exact List.nodup_nil

theorem mem_names (h : names.lookup l = some name) : (l, name) ∈ names := by
  obtain ⟨l₁, l₂, eq, _⟩ := List.lookup_eq_some_iff.mp h
  rw [eq]
  simp

theorem naming_gmail : Naming gmail.labels (names.lookup ·) where
  category {l} h := by
    simp only [CATEGORIES, PRIMARY, List.mem_cons, List.not_mem_nil, or_false] at h
    rcases h with rfl | rfl | rfl | rfl | rfl
    all_goals rfl
  unread := rfl
  system {name l l'} h := by
    have known : names.lookup l = some name := by
      rw [systemLabel.eq_def] at h
      split at h
      all_goals
        cases h
      all_goals rfl
    refine ⟨fun hc => ?_, fun eq => eq ▸ known⟩
    have distinct : ∀ p ∈ names, ∀ q ∈ names, p.2 = q.2 → p.1 = q.1 := by decide
    exact distinct _ (mem_names hc) _ (mem_names known) rfl
  listed {name l l'} known hc := by
    simp only [gmail] at known
    split at known
    case isFalse => cases known
    case isTrue eq =>
      have only : ∀ p ∈ names, p.2 = "Clients \"A\"" → "Label_5" = p.1 := by decide
      cases known
      exact only _ (mem_names hc) eq

theorem describes_shown : Describes .allMail promotion.labelIds (names.lookup ·) shown where
  unread  := by decide
  starred := by decide
  folder  := nofun
  shown {s} hs := by
    have two : s = "\\\\Inbox" ∨ s = "Clients \\\"A\\\"" := by simpa [gmailLabels, Imap.shown] using hs
    rcases two with rfl | rfl
    · exact ⟨"INBOX", by decide, "\\Inbox", rfl, .quoted (by decide)⟩
    · exact ⟨"Label_5", by decide, "Clients \"A\"", rfl, .quoted (by decide)⟩
  named {l} hl := by
    have three : l = "CATEGORY_PROMOTIONS" ∨ l = "INBOX" ∨ l = "Label_5" := by simpa [promotion] using hl
    rcases three with rfl | rfl | rfl
    · exact .inl (by decide)
    · exact .inr (.inr (.inr (.inr ⟨"\\\\Inbox", by decide, "\\Inbox", rfl, .quoted (by decide)⟩)))
    · exact .inr (.inr (.inr (.inr ⟨"Clients \\\"A\\\"", by decide, "Clients \"A\"", rfl, .quoted (by decide)⟩)))

theorem truthful_gmail : Truthful gmail (fun _ _ => promotion.labelIds) fun _ => (names.lookup ·) := by
  intro f uids w answers w' attrs k run mem _
  simp only [gmail, answer, Prod.mk.injEq, Except.ok.injEq, Option.some.injEq] at run
  obtain ⟨rfl, -⟩ := run
  split at mem
  case isFalse => cases mem
  case isTrue here =>
    obtain rfl := List.mem_singleton.mp mem
    exact ⟨(), le_rfl, le_rfl, here.left ▸ describes_shown, naming_gmail⟩

theorem exists_answer {x : Except ε α × σ} (h : x.1.toBool = true) : ∃ a s, x = (.ok a, s) := by
  have ⟨a, eq⟩ := Except.exists_ok h
  exact ⟨a, x.2, Prod.ext eq rfl⟩

-- One of the two messages asked for is still there: it comes once, with its labels but for the category.
theorem ImapBackfill.promotion_returned :
    ∃ out, ((gmail.fetch ["1f", "20"]).exec start).1 = .ok out ∧ (∃ r ∈ out, key r.id = key "1f") ∧
      (∀ k, out.countP (key ·.id = k) ≤ ["1f", "20"].countP (key · = k)) ∧
      ∃ got more, out = got ++ more ∧ ∀ r ∈ got, "INBOX" ∈ r.labelIds ∧ "CATEGORY_PROMOTIONS" ∉ r.labelIds := by
  obtain ⟨out, m, run⟩ := exists_answer (by decide +kernel : ((gmail.fetch ["1f", "20"]).exec start).1.toBool = true)
  obtain ⟨present, once, got, more, eq, _, labels⟩ := fetch_returned apt_gmail run
  have came := present _ lasting_gmail "1f" (by decide) (by decide)
  refine ⟨out, congrArg Prod.fst run, came, once owns honest_gmail (by rintro _ _ ⟨⟩), got, more, eq, ?_⟩
  intro r hr
  obtain ⟨_, _, _, _, _, labels⟩ := labels _ _ truthful_gmail r hr
  have system : systemLabel "\\Inbox" = some "INBOX" := rfl
  refine ⟨(labels "INBOX").mpr ⟨by decide, by decide, naming_gmail.listed_of_system system⟩, fun h => ?_⟩
  exact ((labels _).mp h).right.left (by decide)

def read (x : Except ProviderError (List FetchedMessage)) : Option (List (MessageId × List LabelId)) :=
  x.toOption.map fun out => out.map fun r => (r.id, r.labelIds)

-- X-GM-LABELS has no categories; and an id that is asked for twice over the API comes twice.
theorem ImapBackfill.promotion_differs :
    read (.ok [promotion]) = some [("1f", ["CATEGORY_PROMOTIONS", "INBOX", "Label_5"])] ∧
    read ((gmail.fetch ["1f"]).exec start).1 = some [("1f", ["INBOX", "Label_5"])] ∧
    (read (({ gmail with config.maxMessageBytes := 10 }.fetch ["1f", "1f"]).exec start).1).map (·.map (·.1)) =
      some ["1f", "1f"] := by
  decide +kernel

end Kaluta.Imap
