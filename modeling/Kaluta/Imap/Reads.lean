import Kaluta.Imap.Fetch
import Kaluta.Imap.Labels

-- What every step of a fetch keeps, whatever the servers answer and other calls do meanwhile.
namespace Kaluta.Attempt

open Imap

variable {ω : Type}

theorem Follows.orNetwork {R : Mem ω → Mem ω → Prop} {x : ImapResult ω α} (h : Follows R x) :
    Follows R (orNetwork x) := by
  intro m
  have hm := h m
  rw [Imap.orNetwork, exec_ofFn]
  rcases eq : x.exec m with ⟨e | a, m'⟩
  all_goals rwa [eq] at hm

variable [Preorder ω]

theorem Follows.call (op : Op ω α) : Follows (Onward P) op.call :=
  fun m => ⟨op.later m.world, id⟩

-- A change to anything but the map and the world.
theorem Follows.quiet {g : Mem ω → Mem ω} (map : ∀ m, (g m).map = m.map) (world : ∀ m, (g m).world = m.world) :
    Follows (Onward P) (modify g : ImapResult ω Unit) :=
  .modify fun m => ⟨(world m).ge, fun h => (map m).symm ▸ h⟩

end Kaluta.Attempt

namespace Kaluta.Imap

open Attempt
open Provider (ProviderError)

section Kept

variable {ω : Type} [Preorder ω] [Mail] {P : (UInt64 → Option Located) → Prop} (source : ImapBackfill ω)

-- True of every map that is loaded, and of what is left when an id is dropped.
structure Stable (P : (UInt64 → Option Located) → Prop) : Prop where
  reload : (Folder.ALL.mapM source.scanFolder).exec m = (.ok found, m') → P (found.flatten.foldl orInsert fun _ => none)
  forget : P map → P (Function.update map k none)

theorem Stable.trivial : Stable source fun _ => True where
  reload _ := True.intro
  forget _ := True.intro

namespace ImapBackfill

theorem available_follows : Follows (Onward P) source.available :=
  .bind .get fun _ => .ite (.throw _) (.ite (.throw _) (.pure _))

theorem connect_follows : Follows (Onward P) source.connect := by
  have welcome : Follows (Onward P) (modify ({ · with refusedAt := 0 }) : ImapResult ω Unit) :=
    .quiet (fun _ => rfl) fun _ => rfl
  have refused : Follows (Onward P)
      (modify fun m => { m with refusedAt := max (source.server.now m.world) 1 } : ImapResult ω Unit) :=
    .quiet (fun _ => rfl) fun _ => rfl
  exact .bind (.call _) fun _ => .ite welcome <|
    .bind (.call _) fun _ => .bind (.call _) fun _ => .ite welcome (.bind refused fun _ => .throw _)

theorem session_follows : Follows (Onward P) source.session :=
  .bind .get fun _ => .ite (.quiet (fun _ => rfl) fun _ => rfl) <|
    .bind source.connect_follows fun _ => .quiet (fun _ => rfl) fun _ => rfl

omit [Mail] in
theorem putBack_follows : Follows (Onward P) (putBack : ImapResult ω Unit) :=
  .quiet (fun _ => rfl) fun _ => rfl

theorem countBytes_follows (bytes : Nat) : Follows (Onward P) (source.countBytes bytes) :=
  .quiet (fun _ => rfl) fun _ => rfl

theorem openFolder_follows (folder : Folder) : Follows (Onward P) (source.openFolder folder) := by
  have select (selected : Option Folder) :
      Follows (Onward P) (modify ({ · with selected := selected }) : ImapResult ω Unit) :=
    .quiet (fun _ => rfl) fun _ => rfl
  exact .bind .get fun _ => .ite (.pure _) <| .bind (.call _) fun _ =>
    .ite (.bind (select _) fun _ => .pure _) (.ite (.throw _) (.bind (select _) fun _ => .pure _))

theorem scanFolder_follows (folder : Folder) : Follows (Onward P) (source.scanFolder folder) :=
  .bind (source.openFolder_follows folder) fun _ =>
    .ite (.bind .get fun _ => .bind (.orNetwork (.call _)) fun _ => .pure _) (.pure _)

theorem fetchChunk_follows (folder : Folder) (chunk : List UInt32) :
    Follows (Onward P) (source.fetchChunk folder chunk) :=
  .bind .get fun _ => .bind (.call _) fun _ => .pure _

theorem fetchFolder_follows (located : Folder × List UInt32) : Follows (Onward P) (source.fetchFolder located) :=
  .bind (source.openFolder_follows _) fun _ =>
    .ite (.bind (.mapM (source.fetchChunk_follows located.1) _) fun _ => .pure _) (.pure _)

theorem fetchMessages_follows (ids : List MessageId) : Follows (Onward P) (source.fetchMessages ids) :=
  .bind (.mapM (fun _ => .call _) _) fun _ => .pure _

variable {source} (stable : Stable source P)

include stable

theorem loadMap_follows : Follows (Onward P) source.loadMap := by
  intro m
  have scan := Follows.mapM (R := Onward P) source.scanFolder_follows Folder.ALL m
  rw [loadMap, exec_bind]
  rcases h : (Folder.ALL.mapM source.scanFolder).exec m with ⟨e | found, m₁⟩
  all_goals rw [h] at scan
  case error => exact scan
  case ok    => exact ⟨scan.later, fun _ => stable.reload h⟩

theorem turn_follows (m : Mem ω) (t : Turn ω) : Onward P m (source.turn m t) := by
  cases t
  case aside a  => exact ⟨a.later m, fun h => (a.keepsMap m).symm ▸ h⟩
  case forget k => exact ⟨le_rfl, stable.forget⟩
  case reload   =>
    exact Follows.bind source.session_follows (fun _ => .bind (loadMap_follows stable) fun _ => putBack_follows) m

theorem lock_follows : Follows (Onward P) source.lock := by
  refine .modify fun m => ?_
  generalize source.others m = turns
  induction turns generalizing m
  case nil => exact refl m
  case cons t turns ih => exact (turn_follows stable m t).trans (ih _)

theorem refresh_follows (ids : List MessageId) : Follows (Onward P) (source.refresh ids) := by
  have lock := lock_follows stable
  exact .bind lock fun _ => .bind .get fun _ => .ite
    (.bind lock fun _ => .bind source.session_follows fun _ => .bind (loadMap_follows stable) fun _ => putBack_follows)
    (.pure _)

theorem forget_follows (stale : List UInt64) : Follows (Onward P) (source.forget stale) := by
  refine .ite (.pure _) (.bind (lock_follows stable) fun _ => .modify fun m => ⟨le_rfl, fun h => ?_⟩)
  exact List.foldl_preserves (fun _ _ => stable.forget) h

theorem fetchImap_follows (wanted : List (UInt64 × Located)) : Follows (Onward P) (source.fetchImap wanted) :=
  .ite (.pure _) <| .bind (lock_follows stable) fun _ => .bind source.session_follows fun _ =>
    .bind (.mapM source.fetchFolder_follows _) fun _ => .bind putBack_follows fun _ =>
      .bind (source.countBytes_follows _) fun _ => .pure _

end ImapBackfill

end Kept

section Routes

variable {map : UInt64 → Option Located} {maxBytes : Nat} {id : MessageId} {ids : List MessageId}

theorem route_eq_inl (h : route map maxBytes id = .inl found) : key id = .inl found.1 ∧ map found.1 = some found.2 := by
  rw [route] at h
  split at h
  case h_2 => cases h
  case h_1 found' eq =>
    split at h
    case isFalse => cases h
    case isTrue  =>
      obtain rfl := Sum.inl.inj h
      have ⟨k, hk, hl⟩ := Option.bind_eq_some_iff.mp eq
      have ⟨l, hl, pair⟩ := Option.map_eq_some_iff.mp hl
      rw [key, hk, ← pair]
      exact ⟨rfl, hl⟩

theorem route_eq_inr (h : route map maxBytes id = .inr id') : id' = id := by
  rw [route] at h
  split at h
  case h_2 => exact (Sum.inr.inj h).symm
  case h_1 =>
    split at h
    case isTrue  => cases h
    case isFalse => exact (Sum.inr.inj h).symm

theorem mem_viaImap (h : found ∈ viaImap map maxBytes ids) : map found.1 = some found.2 := by
  have ⟨id, _, route⟩ := List.mem_filterMap.mp h
  exact (route_eq_inl (Sum.getLeft?_eq_some_iff.mp route)).right

-- Every id asked for goes one of the two ways.
theorem mem_viaImap_or_viaRest (h : id ∈ ids) :
    (∃ found ∈ viaImap map maxBytes ids, key id = .inl found.1) ∨ id ∈ viaRest map maxBytes ids := by
  rcases hr : route map maxBytes id with found | id'
  case inl =>
    exact .inl ⟨found, List.mem_filterMap.mpr ⟨id, h, by rw [hr]; rfl⟩, (route_eq_inl hr).left⟩
  case inr =>
    obtain rfl := route_eq_inr hr
    exact .inr (List.mem_filterMap.mpr ⟨_, h, by rw [hr]; rfl⟩)

theorem countP_viaImap_add_viaRest (k : Key) :
    (viaImap map maxBytes ids).countP (.inl ·.1 = k) + (viaRest map maxBytes ids).countP (key · = k) =
      ids.countP (key · = k) := by
  induction ids
  case nil => rfl
  case cons id ids ih =>
    rw [viaImap, viaRest] at ih ⊢
    rcases hr : route map maxBytes id with found | id'
    case inl =>
      simp only [List.filterMap_cons, hr, Sum.getLeft?_inl, Sum.getRight?_inl, List.countP_cons, ← ih,
        (route_eq_inl hr).left]
      omega
    case inr =>
      obtain rfl := route_eq_inr hr
      simp only [List.filterMap_cons, hr, Sum.getLeft?_inr, Sum.getRight?_inr, List.countP_cons, ← ih]
      omega

end Routes

variable {ω : Type} [Preorder ω] [Mail] {source : ImapBackfill ω} {m m' : Mem ω}

section Asked

-- What a command over the session answers, at some time between two worlds.
def Answered (source : ImapBackfill ω) (v v' : ω) (f : Folder) (uids : List UInt32) (answers : List Attributes) : Prop :=
  ∃ w w', v ≤ w ∧ (source.server.bodies (some f) uids).run w = (.ok answers, w') ∧ w' ≤ v'

-- The API's answer about a message.
def Told (source : ImapBackfill ω) (v v' : ω) (id : MessageId) (answer : Option FetchedMessage) : Prop :=
  ∃ w w', v ≤ w ∧ (source.server.getMessage id).run w = (.ok answer, w') ∧ w' ≤ v'

theorem openFolder_selects (h : (source.openFolder f).exec m = (.ok true, m')) : m'.selected = some f := by
  rw [ImapBackfill.openFolder, bind_eq_ok] at h
  have ⟨m₀, m₁, hg, h⟩ := h
  cases hg
  split at h
  case isTrue already =>
    obtain ⟨-, rfl⟩ := pure_eq_ok.mp h
    exact already
  case isFalse =>
    have ⟨found, m₂, _, h⟩ := bind_eq_ok.mp h
    split at h
    case isTrue =>
      have ⟨_, m₃, select, h⟩ := bind_eq_ok.mp h
      cases select
      obtain ⟨-, rfl⟩ := pure_eq_ok.mp h
      rfl
    case isFalse =>
      split at h
      case isTrue  => cases h
      case isFalse =>
        have ⟨_, m₃, select, h⟩ := bind_eq_ok.mp h
        cases (pure_eq_ok.mp h).left

-- Chunks of one folder: the session keeps it open.
structure Within (m m' : Mem ω) : Prop where
  later    : m.world ≤ m'.world
  selected : m'.selected = m.selected

instance : IsPreorder (Mem ω) Within where
  refl _          := ⟨le_rfl, rfl⟩
  trans _ _ _ a b := ⟨a.later.trans b.later, b.selected.trans a.selected⟩

theorem fetchChunk_within (chunk : List UInt32) : Follows Within (source.fetchChunk f chunk) :=
  .bind .get fun _ => .bind (fun m => ⟨(source.server.bodies _ chunk).later m.world, rfl⟩) fun _ => .pure _

theorem fetchChunk_eq_ok (h : (source.fetchChunk f chunk).exec m = (.ok out, m')) (selected : m.selected = some f) :
    ∃ answers, Answered source m.world m'.world f chunk answers ∧
      out = answers.filterMap (toFetched · source.labels f) := by
  rw [ImapBackfill.fetchChunk, bind_eq_ok] at h
  have ⟨m₀, m₁, hg, h⟩ := h
  cases hg
  have ⟨answers, m₂, ask, h⟩ := bind_eq_ok.mp h
  obtain ⟨rfl, rfl⟩ := pure_eq_ok.mp h
  rw [selected] at ask
  have ⟨w, run, eq⟩ := Op.call_eq_ok.mp ask
  exact ⟨answers, ⟨m.world, w, le_rfl, run, eq ▸ le_rfl⟩, rfl⟩

theorem Answered.mono (h : Answered source v v' f uids answers) (hv : w ≤ v) (hv' : v' ≤ w') :
    Answered source w w' f uids answers :=
  have ⟨x, x', before, run, after⟩ := h
  ⟨x, x', hv.trans before, run, after.trans hv'⟩

-- The messages read of `f`, one command for each chunk of the UIDs; none when the folder is missing.
theorem fetchFolder_eq_ok (h : (source.fetchFolder (f, uids)).exec m = (.ok out, m')) :
    ∃ asked outs, asked.flatten.Sublist uids ∧ out = outs.flatten ∧
      List.Forall₂ (fun chunk out => ∃ answers, Answered source m.world m'.world f chunk answers ∧
        out = answers.filterMap (toFetched · source.labels f)) asked outs := by
  rw [ImapBackfill.fetchFolder, bind_eq_ok] at h
  have ⟨opened, m₁, hOpen, h⟩ := h
  have first := (source.openFolder_follows (P := fun _ => True) f).of_ok hOpen
  cases opened
  case false =>
    rw [if_neg Bool.false_ne_true] at h
    obtain ⟨rfl, rfl⟩ := pure_eq_ok.mp h
    exact ⟨[], [], List.nil_sublist _, rfl, .nil⟩
  case true =>
    rw [if_pos rfl] at h
    have ⟨outs, m₂, loop, h⟩ := bind_eq_ok.mp h
    obtain ⟨rfl, rfl⟩ := pure_eq_ok.mp h
    have flat := flatten_chunks (n := max source.config.batch 1) (by omega) uids
    refine ⟨chunks _ uids, outs, by rw [flat], rfl, (mapM_eq_ok fetchChunk_within loop).imp ?_⟩
    intro chunk out ⟨s₁, s₂, before, run, after⟩
    have ⟨answers, answered, eq⟩ := fetchChunk_eq_ok run (before.selected.trans (openFolder_selects hOpen))
    exact ⟨answers, answered.mono (first.later.trans before.later) after.later, eq⟩

theorem fetchImap_eq_ok (h : (source.fetchImap wanted).exec m = (.ok out, m')) :
    ∃ outs, out = outs.flatten ∧ List.Forall₂ (fun located out => ∃ m₁ m₂, m.world ≤ m₁.world ∧
      (source.fetchFolder located).exec m₁ = (.ok out, m₂) ∧ m₂.world ≤ m'.world) (byFolder wanted) outs := by
  rw [ImapBackfill.fetchImap] at h
  split at h
  case isTrue empty =>
    obtain ⟨rfl, rfl⟩ := pure_eq_ok.mp h
    exact ⟨[], rfl, empty ▸ .nil⟩
  case isFalse =>
    have ⟨_, m₁, lock, h⟩ := bind_eq_ok.mp h
    have ⟨_, m₂, session, h⟩ := bind_eq_ok.mp h
    have ⟨outs, m₃, loop, h⟩ := bind_eq_ok.mp h
    have ⟨_, m₄, back, h⟩ := bind_eq_ok.mp h
    have ⟨_, m₅, count, h⟩ := bind_eq_ok.mp h
    cases back
    cases count
    obtain ⟨rfl, rfl⟩ := pure_eq_ok.mp h
    have first := (ImapBackfill.lock_follows (Stable.trivial source)).of_ok lock
    have next := (source.session_follows (P := fun _ => True)).of_ok session
    refine ⟨outs, rfl, (mapM_eq_ok (source.fetchFolder_follows (P := fun _ => True)) loop).imp ?_⟩
    intro located out ⟨s₁, s₂, before, run, after⟩
    exact ⟨s₁, s₂, first.later.trans (next.later.trans before.later), run, after.later⟩

-- A message read over IMAP was in the answer to a command.
theorem fetchImap_read (h : (source.fetchImap wanted).exec m = (.ok out, m')) (hr : r ∈ out) :
    ∃ f uids answers attrs, Answered source m.world m'.world f uids answers ∧ attrs ∈ answers ∧
      toFetched attrs source.labels f = some r := by
  obtain ⟨outs, rfl, reads⟩ := fetchImap_eq_ok h
  have ⟨out, ho, hr⟩ := List.mem_flatten.mp hr
  have ⟨(f, uids), _, m₁, m₂, before, run, after⟩ := reads.exists_left ho
  obtain ⟨asked, chunks, _, rfl, reads⟩ := fetchFolder_eq_ok run
  have ⟨out, ho, hr⟩ := List.mem_flatten.mp hr
  obtain ⟨chunk, _, answers, answered, rfl⟩ := reads.exists_left ho
  have ⟨attrs, mem, read⟩ := List.mem_filterMap.mp hr
  exact ⟨f, chunk, answers, attrs, answered.mono before after, mem, read⟩

theorem fetchImap_id (h : (source.fetchImap wanted).exec m = (.ok out, m')) (hr : r ∈ out) : ∃ k, r.id = messageId k :=
  have ⟨_, _, _, _, _, _, read⟩ := fetchImap_read h hr
  have ⟨k, _, hid, _⟩ := toFetched_eq_some read
  ⟨k, hid⟩

theorem fetchMessages_eq_ok (h : (source.fetchMessages ids).exec m = (.ok out, m')) :
    ∃ found, out.Perm found.reduceOption ∧ List.Forall₂ (Told source m.world m'.world) ids found := by
  rw [ImapBackfill.fetchMessages, bind_eq_ok] at h
  have ⟨found, m₁, loop, h⟩ := h
  obtain ⟨rfl, rfl⟩ := pure_eq_ok.mp h
  refine ⟨found, List.perm_insertionSort _ _, (mapM_eq_ok (R := Onward fun _ => True) (fun _ => .call _) loop).imp ?_⟩
  intro id answer ⟨s₁, s₂, before, run, after⟩
  have ⟨w, run, eq⟩ := Op.call_eq_ok.mp run
  rw [eq] at after
  exact ⟨s₁.world, w, before.later, run, after.later⟩

theorem fetch_eq_ok (stable : Stable source P) (h : (source.fetch ids).exec m = (.ok out, m')) :
    ∃ m₁ m₂ m₃ got more, Onward P m m₁ ∧
      (source.fetchImap (viaImap m₁.map source.config.maxMessageBytes ids)).exec m₁ = (.ok got, m₂) ∧
      Onward P m₂ m₃ ∧
      (source.fetchMessages (viaRest m₁.map source.config.maxMessageBytes ids ++
        (stale (viaImap m₁.map source.config.maxMessageBytes ids) got).map messageId)).exec m₃ = (.ok more, m') ∧
      out = got ++ more := by
  rw [ImapBackfill.fetch, bind_eq_ok] at h
  have ⟨_, a₁, available, h⟩ := h
  have ⟨_, a₂, refresh, h⟩ := bind_eq_ok.mp h
  have ⟨_, m₁, lock, h⟩ := bind_eq_ok.mp h
  have ⟨_, _, hg, h⟩ := bind_eq_ok.mp h
  cases hg
  have ⟨got, m₂, read, h⟩ := bind_eq_ok.mp h
  have ⟨_, m₃, forget, h⟩ := bind_eq_ok.mp h
  have before : Onward P m m₁ :=
    (source.available_follows.of_ok available).trans <|
      ((ImapBackfill.refresh_follows stable ids).of_ok refresh).trans <|
        (ImapBackfill.lock_follows stable).of_ok lock
  refine ⟨m₁, m₂, m₃, got, ?_⟩
  suffices ∃ more, (source.fetchMessages _).exec m₃ = (.ok more, m') ∧ out = got ++ more from
    this.imp fun more ⟨rest, eq⟩ =>
      ⟨before, orNetwork_eq_ok.mp read, (ImapBackfill.forget_follows stable _).of_ok forget, rest, eq⟩
  dsimp only at h
  split at h
  case isTrue none =>
    obtain ⟨rfl, rfl⟩ := pure_eq_ok.mp h
    exact ⟨[], by rw [none]; rfl, (List.append_nil _).symm⟩
  case isFalse =>
    have ⟨more, _, rest, h⟩ := bind_eq_ok.mp h
    obtain ⟨rfl, rfl⟩ := pure_eq_ok.mp h
    exact ⟨more, rest, rfl⟩

end Asked

end Kaluta.Imap
