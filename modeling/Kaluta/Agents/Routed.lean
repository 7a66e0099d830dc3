import Kaluta.Agents.Routing
import Mathlib.Data.List.TakeWhile

-- When each message of a Primitive account is kept by the agents that it names, and by no other.
namespace Kaluta.Primitive

open Guide (Unicode toLowercase trim ascii)
open Agents (AgentMeta AgentDomain mailboxAddress localPart rsplitOnce isAddress taken allowed)

section Partition

variable [Unicode] {agents : List Agent}

def routingOf (agents : List Agent) (a : Agent) : Routing :=
  primitiveRouting agents a.1 a.2

-- Whether one of the addresses is an agent's.
def Names (addresses : List String) (a : Agent) : Prop :=
  anyOf (found addresses) (addressesOf a.2)

-- The agents that addresses name keep the mail, and if they name none the first agent does.
def Partition (agents : List Agent) (addresses : List String) (keep : Routing → Option Keep) : Prop :=
  ((∃ a ∈ agents, Names addresses a) → ∀ a ∈ agents, (keep (routingOf agents a)).isSome ↔ Names addresses a) ∧
  ((¬∃ a ∈ agents, Names addresses a) → ∀ a ∈ agents, (keep (routingOf agents a)).isSome ↔ first agents = some a)

-- The addresses that decide whose a received message is.
def recipients (parsed : String → List String) (toEmail : Option String) (raw : List String) : List String :=
  ((given toEmail).map (addressesIn parsed)).getD raw

structure Routed (agents : List Agent) : Prop where
  received : ∀ parsed toEmail raw,
    Partition agents (recipients parsed toEmail raw) fun routing => fetchInbound parsed routing toEmail raw
  sent     : ∀ parsed fromHeader,
    Partition agents (addressesIn parsed fromHeader) fun routing => fetchOutbound parsed routing fromHeader
  -- No two agents have addresses that routing takes for the same.
  apart    : ∀ a ∈ agents, ∀ b ∈ agents, ∀ o ∈ addressesOf a.2, ∀ o' ∈ addressesOf b.2,
    normalize o = normalize o' → a = b
  -- A listing gives what is kept when fetched, and of rows that say whose they are nothing else.
  listed   : ∀ a ∈ agents, ∀ parsed toEmail raw,
    (fetchInbound parsed (routingOf agents a) toEmail raw).isSome → lists parsed (routingOf agents a) toEmail
  decided  : ∀ a ∈ agents, ∀ parsed toEmail raw, (given toEmail).isSome → lists parsed (routingOf agents a) toEmail →
    (fetchInbound parsed (routingOf agents a) toEmail raw).isSome
  sentToo  : ∀ a ∈ agents, ∀ parsed fromHeader, (given (some fromHeader)).isSome →
    (lists parsed (routingOf agents a) (some fromHeader) ↔
      (fetchOutbound parsed (routingOf agents a) fromHeader).isSome)

omit [Unicode] in
theorem first_mem (h : first agents = some a) : a ∈ agents := by
  induction agents generalizing a
  case nil => cases h
  case cons b as ih =>
    simp only [first] at h
    cases rest : first as with
    | none   => rw [rest] at h; cases h; exact List.mem_cons_self
    | some c =>
      rw [rest] at h
      cases h
      split
      case isTrue  => exact List.mem_cons_self
      case isFalse => exact List.mem_cons_of_mem _ (ih rest)

omit [Unicode] in
theorem first_isSome (h : a ∈ agents) : ∃ b, first agents = some b := by
  cases agents with
  | nil       => cases h
  | cons c as =>
    simp only [first]
    cases first as with
    | none   => exact ⟨_, rfl⟩
    | some d => exact ⟨_, rfl⟩

theorem anyOf_flatMap (addresses : List String) (as : List Agent) :
    anyOf (found addresses) (as.flatMap fun a => addressesOf a.2) ↔ ∃ a ∈ as, Names addresses a := by
  simp only [anyOf, Names, List.any_flatMap, List.any_eq_true]

-- Each agent's routing, when ids are unique.
theorem keeps_iff (unique : (agents.map Prod.fst).Nodup) (ha : a ∈ agents) (addresses : List String) :
    ((routingOf agents a).keeps addresses).isSome ↔
      Names addresses a ∨ first agents = some a ∧ ¬∃ b ∈ agents, Names addresses b := by
  have same : ∀ b ∈ agents, b.1 = a.1 → b = a := fun b hb h => List.inj_on_of_nodup_map unique hb ha h
  have self : agents.find? (·.1 = a.1) = some a := by
    cases look : agents.find? (·.1 = a.1) with
    | none   => exact absurd (List.find?_eq_none.mp look a ha) (by simp)
    | some b => rw [same b (List.mem_of_find?_eq_some look) (by simpa using List.find?_some look)]
  have own : anyOf (found addresses) (routingOf agents a).own ↔ Names addresses a := by
    simp only [routingOf, primitiveRouting, self, Option.map_some, Option.getD_some, Names]
  have others : anyOf (found addresses) (routingOf agents a).others ↔ ∃ b ∈ agents, b ≠ a ∧ Names addresses b := by
    simp only [routingOf, primitiveRouting, anyOf_flatMap, List.mem_filter, decide_eq_true_eq]
    grind
  have catches : (routingOf agents a).catchAll = true ↔ first agents = some a := by
    obtain ⟨b, hb⟩ := first_isSome ha
    simp only [routingOf, primitiveRouting, hb, Option.all_some, decide_eq_true_eq, Option.some.injEq]
    exact ⟨same b (first_mem hb), congrArg Prod.fst⟩
  unfold Routing.keeps
  split
  case isTrue mine => simp [own.mp mine]
  case isFalse mine =>
    split
    case isTrue out   => grind
    case isFalse out  => grind

theorem partition (unique : (agents.map Prod.fst).Nodup) (addresses : List String) :
    Partition agents addresses fun routing => routing.keeps addresses := by
  constructor
  case left =>
    intro named a ha
    rw [keeps_iff unique ha]
    exact or_iff_left fun h => h.2 named
  case right =>
    intro unnamed a ha
    rw [keeps_iff unique ha]
    constructor
    case mp =>
      intro h
      cases h with
      | inl named => exact absurd ⟨a, ha, named⟩ unnamed
      | inr h     => exact h.1
    case mpr => exact fun h => .inr ⟨h, unnamed⟩

theorem fetchInbound_eq (parsed : String → List String) (toEmail : Option String) (raw : List String) :
    (fun routing => fetchInbound parsed routing toEmail raw) =
      fun routing => routing.keeps (recipients parsed toEmail raw) := by
  funext routing
  unfold fetchInbound recipients
  cases given toEmail <;> rfl

theorem routed (unique : (agents.map Prod.fst).Nodup)
    (apart : ∀ a ∈ agents, ∀ b ∈ agents, ∀ o ∈ addressesOf a.2, ∀ o' ∈ addressesOf b.2,
      normalize o = normalize o' → a = b) :
    Routed agents where
  received parsed toEmail raw := by rw [fetchInbound_eq]; exact partition unique _
  sent parsed fromHeader := partition unique _
  apart := apart
  listed a _ parsed toEmail raw kept := by
    unfold fetchInbound at kept
    unfold lists
    cases tells : given toEmail with
    | none       => rfl
    | some value => rw [tells] at kept; exact kept
  decided a _ parsed toEmail raw tells listed := by
    obtain ⟨value, tells⟩ := Option.isSome_iff_exists.mp tells
    unfold fetchInbound
    rw [lists, tells] at listed
    rw [tells]
    exact listed
  sentToo a _ parsed fromHeader tells := by
    obtain ⟨value, tells⟩ := Option.isSome_iff_exists.mp tells
    have ⟨same, _⟩ := Option.filter_eq_some_iff.mp tells
    cases same
    rw [lists, tells]
    rfl

end Partition

section Domains

theorem rsplitOnce_append (part : String) {domain : String} (h : '@' ∉ domain.toList) :
    rsplitOnce (part ++ "@" ++ domain) = some (part, domain) := by
  have chars : (part ++ "@" ++ domain).toList.reverse = domain.toList.reverse ++ '@' :: part.toList.reverse := by simp
  have all : ∀ c ∈ domain.toList.reverse, (decide (c ≠ '@')) = true := by
    intro c hc
    simp only [ne_eq, decide_not, Bool.not_eq_eq_eq_not, Bool.not_true, decide_eq_false_iff_not]
    rintro rfl
    exact h (List.mem_reverse.mp hc)
  unfold rsplitOnce
  simp only [chars, List.dropWhile_append_of_pos all, List.takeWhile_append_of_pos all]
  simp

theorem rsplitOnce_isSome {address : String} (h : '@' ∈ address.toList) : ∃ p, rsplitOnce address = some p := by
  unfold rsplitOnce
  simp only
  split
  case h_1 none_ =>
    have := List.dropWhile_eq_nil_iff.mp none_ '@' (List.mem_reverse.mpr h)
    simp at this
  case h_2 => exact ⟨_, rfl⟩

theorem rsplitOnce_domain {address : String} (h : rsplitOnce address = some p) : '@' ∉ p.2.toList := by
  unfold rsplitOnce at h
  simp only at h
  split at h
  case h_1 => cases h
  case h_2 =>
    cases h
    intro mem
    have := List.mem_takeWhile_imp (List.mem_reverse.mp (by simpa using mem))
    simp at this

end Domains

section Runs

variable [Unicode] {s s' : State} {id : String}

-- Written as routing compares it.
def Normal (address : String) : Prop :=
  normalize address = address

-- The record as it was read is there, and no other agent has the address.
def State.Still (s : State) (c : Call) (m : AgentMeta) (address : String) : Prop :=
  (c.id, m) ∈ s.agents ∧ ¬taken c.copy address (s.others c.id)

-- Addresses are given as routing compares them, the account's own domains are other than the service's, and between a
-- call's reading and its writing its agent does not change and no other takes the address.
def State.Undisturbed (s : State) : Action → Prop
  | .create _ given name _        =>
    Normal (mailboxAddress given name) ∧
    domainOf (mailboxAddress given name) = (rsplitOnce (mailboxAddress given name)).map Prod.snd
  | .add _ name domain verified _ =>
    (∀ d ∈ s.domainFor domain verified, Normal (localPart name ++ "@" ++ d)) ∧
    (∀ d ∈ s.managed, Normal (localPart name ++ "@" ++ d)) ∧ ∀ d ∈ verified, some d ≠ s.managed ∧ '@' ∉ d.toList
  | .call _ address               => Normal (toLowercase (trim address))
  | .write n domains              => ∀ c ∈ s.calls[n]?, s.Still c c.copy c.address ∧
    ∀ d ∈ domains.getD [], d.verified → some d.domain ≠ s.managed
  | .provide n ok                 => ok = false →
    ∀ c ∈ s.calls[n]?, s.Still c { c.copy with address := c.address } c.copy.address
  | .remove _                     => True

instance : Decidable (Normal a) := inferInstanceAs (Decidable (normalize a = a))

instance : Decidable (s.Still c m address) := inferInstanceAs (Decidable (_ ∧ _))

instance : ∀ a, Decidable (s.Undisturbed a)
  | .create ..  => inferInstanceAs (Decidable (_ ∧ _))
  | .add ..     => inferInstanceAs (Decidable (_ ∧ _ ∧ _))
  | .call ..    => inferInstanceAs (Decidable (Normal _))
  | .write ..   => inferInstanceAs (Decidable (∀ c ∈ _, _ ∧ _))
  | .provide .. => inferInstanceAs (Decidable (_ → _))
  | .remove _   => inferInstanceAs (Decidable True)

-- An agent's addresses: the service's, and its own one where that is another.
structure Good (account : String) (managed : Option String) (m : AgentMeta) : Prop where
  account : m.serviceAccount = account
  normal  : Normal m.address ∧ ∀ g ∈ m.managedAddress, Normal g
  placed  : ∃ g d, m.managedAddress = some g ∧ managed = some d ∧ (rsplitOnce g).map Prod.snd = some d ∧
    (m.address = g ∨ (rsplitOnce m.address).map Prod.snd ≠ some d)

structure State.Inv (s : State) : Prop where
  unique   : (s.agents.map Prod.fst).Nodup
  domain   : ∀ d ∈ s.managed, '@' ∉ d.toList
  good     : ∀ a ∈ s.agents, Good s.account s.managed a.2
  distinct : ∀ a ∈ s.agents, ∀ b ∈ s.agents, a.1 ≠ b.1 →
    a.2.address ≠ b.2.address ∧ a.2.managedAddress ≠ b.2.managedAddress
  calls    : ∀ c ∈ s.calls, Good s.account s.managed c.copy ∧ Normal c.address

omit [Unicode] in
theorem mem_addressesOf {m : AgentMeta} (h : o ∈ addressesOf m) : o = m.address ∨ m.managedAddress = some o := by
  cases List.mem_cons.mp h with
  | inl h => exact .inl h
  | inr h => exact .inr (Option.mem_filter_iff.mp (Option.mem_toList.mp h)).1

namespace State

theorem Inv.apart (h : s.Inv) (ha : a ∈ s.agents) (hb : b ∈ s.agents) (ho : o ∈ addressesOf a.2)
    (ho' : o' ∈ addressesOf b.2) (same : normalize o = normalize o') : a = b := by
  by_contra other
  have ids : a.1 ≠ b.1 := fun id => other (List.inj_on_of_nodup_map h.unique ha hb id)
  have ⟨addresses, managed⟩ := h.distinct a ha b hb ids
  have normal {c : Agent} {o : String} (hc : c ∈ s.agents) (ho : o ∈ addressesOf c.2) : normalize o = o := by
    cases mem_addressesOf ho with
    | inl ho => rw [ho]; exact (h.good c hc).normal.1
    | inr ho => exact (h.good c hc).normal.2 o ho
  rw [normal ha ho, normal hb ho'] at same
  subst same
  obtain ⟨g, d, hg, hd, gd, place⟩ := (h.good a ha).placed
  obtain ⟨g', d', hg', hd', gd', place'⟩ := (h.good b hb).placed
  cases mem_addressesOf ho <;> cases mem_addressesOf ho' <;> grind

theorem Inv.routed (h : s.Inv) : Routed s.agents :=
  Primitive.routed h.unique fun _ ha _ hb _ ho _ ho' => h.apart ha hb ho ho'

theorem Inv.put (h : s.Inv) (good : Good s.account s.managed m) (other : ∀ b ∈ s.agents, b.1 ≠ id →
    b.2.address ≠ m.address ∧ b.2.managedAddress ≠ m.managedAddress) : (s.put id m).Inv := by
  obtain ⟨unique, domain, goods, distinct, calls⟩ := h
  constructor
  case unique =>
    rw [State.put, List.map_append, List.nodup_append]
    refine ⟨unique.sublist (List.filter_sublist.map _), by simp, ?_⟩
    grind
  case domain   => exact domain
  case good     => simp only [State.put]; grind
  case distinct => simp only [State.put]; grind
  case calls    => exact calls

theorem Inv.calls_subset (h : s.Inv) {calls : List Call}
    (sub : ∀ c ∈ calls, Good s.account s.managed c.copy ∧ Normal c.address) : Inv { s with calls } :=
  ⟨h.unique, h.domain, h.good, h.distinct, sub⟩

omit [Unicode] in
theorem allowed_cases {copy : AgentMeta} (h : allowed copy address domains) :
    copy.managedAddress = some address ∨
      ∃ d ∈ domains.getD [], d.verified ∧ (rsplitOnce address).map Prod.snd = some d.domain := by
  simp only [allowed, decide_eq_true_eq, List.any_eq_true] at h
  apply h.imp_right
  rintro ⟨d, hd, verified, on⟩
  refine ⟨d, hd, verified, ?_⟩
  cases split : rsplitOnce address with
  | none   => rw [split] at on; cases on
  | some p => rw [split] at on; simpa using on

omit [Unicode] in
theorem not_taken (account : m.serviceAccount = s.account) (good : ∀ a ∈ s.agents, a.2.serviceAccount = s.account)
    (free : ¬taken m address (s.others id)) (hb : b ∈ s.agents) (other : b.1 ≠ id) : b.2.address ≠ address := by
  intro same
  apply free
  apply List.any_eq_true.mpr
  exact ⟨b.2, List.mem_map.mpr ⟨b, by simpa using ⟨hb, other⟩, rfl⟩, by simp [account, good b hb, same]⟩

theorem Inv.create {given name : String} {createdAt : Int} (normal : Normal (mailboxAddress given name))
    (lower : domainOf (mailboxAddress given name) = (rsplitOnce (mailboxAddress given name)).map Prod.snd) :
    Inv {
      created := true
      account := id
      managed := domainOf (mailboxAddress given name)
      agents  := [(id, {
        address := mailboxAddress given name, name, createdAt
        managedAddress := some (mailboxAddress given name), serviceAccount := id })] } := by
  have has : '@' ∈ (mailboxAddress given name).toList := Agents.at_mem_mailboxAddress
  obtain ⟨p, split⟩ := rsplitOnce_isSome has
  constructor
  case unique   => simp
  case domain   =>
    intro d hd
    rw [lower, split] at hd
    cases hd
    exact rsplitOnce_domain split
  case good     =>
    intro a ha
    obtain rfl := List.mem_singleton.mp ha
    refine ⟨rfl, ⟨normal, ?_⟩, mailboxAddress given name, p.2, rfl, ?_, ?_, .inl rfl⟩
    case refine_1 => intro g hg; cases hg; exact normal
    case refine_2 => simp only [lower, split, Option.map_some]
    case refine_3 => rw [split]; rfl
  case distinct =>
    intro a ha b hb other
    rw [List.mem_singleton.mp ha, List.mem_singleton.mp hb] at other
    exact absurd rfl other
  case calls    => exact fun _ hc => absurd hc List.not_mem_nil

theorem domainFor_cases {domain : Option String} {verified : List String} (h : s.domainFor domain verified = some d) :
    s.managed = some d ∨ d ∈ verified := by
  unfold domainFor at h
  split at h
  case h_1 => exact .inl h
  case h_2 => grind

theorem Inv.add {name d m : String} {createdAt : Int} (h : s.Inv) (managed : s.managed = some m)
    (normal : Normal (localPart name ++ "@" ++ d)) (normal' : Normal (localPart name ++ "@" ++ m))
    (place : m = d ∨ some d ≠ s.managed ∧ '@' ∉ d.toList)
    (free : ¬s.addTaken (localPart name ++ "@" ++ d) (localPart name ++ "@" ++ m)) :
    (s.put id {
      address := localPart name ++ "@" ++ d, name, createdAt
      managedAddress := some (localPart name ++ "@" ++ m), serviceAccount := s.account }).Inv := by
  apply h.put
  case good =>
    refine ⟨rfl, ⟨normal, ?_⟩, _, m, rfl, managed, ?_, ?_⟩
    case refine_1 => intro g hg; cases hg; exact normal'
    case refine_2 => rw [rsplitOnce_append _ (h.domain m managed)]; rfl
    case refine_3 =>
      obtain rfl | ⟨other, plain⟩ := place
      case inl => exact .inl rfl
      case inr =>
        right
        rw [rsplitOnce_append _ plain, Option.map_some, ← managed]
        exact other
  case other =>
    intro b hb _
    simp only [addTaken, List.any_eq_true, decide_eq_true_eq, not_exists, not_and, not_or] at free
    exact free b hb

-- A record is written with another address of the agent's.
theorem Inv.write {c : Call} {m : AgentMeta} {address : String} (h : s.Inv) (good : Good s.account s.managed c.copy)
    (same : m.managedAddress = c.copy.managedAddress) (still : s.Still c m c.copy.address ∨ s.Still c m address)
    (free : ¬taken c.copy address (s.others c.id)) (normal : Normal address)
    (place : c.copy.managedAddress = some address ∨ (rsplitOnce address).map Prod.snd ≠ s.managed) :
    (s.put c.id { c.copy with address }).Inv := by
  have there : (c.id, m) ∈ s.agents := still.elim And.left And.left
  apply h.put
  case good =>
    obtain ⟨g, d, hg, hd, gd, _⟩ := good.placed
    refine ⟨good.account, ⟨normal, good.normal.2⟩, g, d, hg, hd, gd, ?_⟩
    cases place with
    | inl own   => exact .inl (Option.some.inj (own.symm.trans hg))
    | inr other => exact .inr (hd ▸ other)
  case other =>
    intro b hb other
    constructor
    case left  => exact not_taken good.account (fun a ha => (h.good a ha).account) free hb other
    case right => exact same ▸ (h.distinct b hb _ there other).2

theorem Inv.step (h : s.Inv) (ok : s.Undisturbed a) (hs : s.step a = some s') : s'.Inv := by
  cases a <;> simp only [State.step] at hs
  case create id given name createdAt =>
    split at hs
    case isTrue  => cases hs
    case isFalse => cases hs; exact .create ok.1 ok.2
  case add id name domain verified createdAt =>
    split at hs
    case isTrue  => cases hs; exact h
    case isFalse =>
      split at hs
      case h_1 d m hd hm =>
        split at hs
        case isTrue  => cases hs; exact h
        case isFalse free =>
          cases hs
          have place : m = d ∨ some d ≠ s.managed ∧ '@' ∉ d.toList := by
            cases domainFor_cases hd with
            | inl own => exact .inl (Option.some.inj (hm.symm.trans own))
            | inr own => exact .inr (ok.2.2 d own)
          exact h.add hm (ok.1 d hd) (ok.2.1 m hm) place fun taken => free (.inr taken)
      case h_2 => cases hs; exact h
  case call id address =>
    split at hs
    case h_1 => cases hs; exact h
    case h_2 _ copy found =>
      split at hs
      case isFalse => cases hs; exact h
      case isTrue  =>
        cases hs
        apply h.calls_subset
        intro c hc
        cases List.mem_append.mp hc with
        | inl hc => exact h.calls c hc
        | inr hc =>
          rw [List.mem_singleton.mp hc]
          exact ⟨h.good _ (List.mem_of_find?_eq_some found), ok⟩
  case write n domains =>
    split at hs
    case h_1 => cases hs
    case h_2 c hc =>
      have ⟨good, normal⟩ := h.calls c (List.mem_of_getElem? hc)
      have ⟨still, own⟩ := ok c hc
      split at hs
      case isTrue  => cases hs
      case isFalse =>
        split at hs
        case isFalse => cases hs; exact h.calls_subset fun c hc => h.calls c (List.mem_of_mem_eraseIdx hc)
        case isTrue allowed_ =>
          cases hs
          have place : c.copy.managedAddress = some c.address ∨ (rsplitOnce c.address).map Prod.snd ≠ s.managed := by
            apply (allowed_cases allowed_).imp_right
            rintro ⟨d, hd, verified, on⟩
            rw [on]
            exact own d hd verified
          apply (h.write good rfl (.inr still) still.2 normal place).calls_subset
          intro c' hc'
          cases List.mem_or_eq_of_mem_set hc' with
          | inl hc' => exact h.calls c' hc'
          | inr hc' => rw [hc']; exact ⟨good, normal⟩
  case provide n done =>
    split at hs
    case h_1 => cases hs
    case h_2 c hc =>
      have ⟨good, normal⟩ := h.calls c (List.mem_of_getElem? hc)
      split at hs
      case isTrue  => cases hs
      case isFalse =>
        split at hs
        case isTrue => cases hs; exact h.calls_subset fun c hc => h.calls c (List.mem_of_mem_eraseIdx hc)
        case isFalse failed =>
          cases hs
          have still := ok (by simpa using failed) c hc
          have place : c.copy.managedAddress = some c.copy.address ∨
              (rsplitOnce c.copy.address).map Prod.snd ≠ s.managed := by
            obtain ⟨g, d, hg, hd, _, place⟩ := good.placed
            rw [hg, hd]
            exact place.imp_left fun h => congrArg some h.symm
          have put :=
            h.write (m := { c.copy with address := c.address }) good rfl (.inl still) still.2 good.normal.1 place
          exact put.calls_subset fun c hc => h.calls c (List.mem_of_mem_eraseIdx hc)
  case remove id =>
    cases hs
    have kept : ∀ a ∈ s.agents.filter (·.1 ≠ id), a ∈ s.agents := fun a ha => List.mem_of_mem_filter ha
    exact ⟨h.unique.sublist (List.filter_sublist.map _), h.domain, fun a ha => h.good a (kept a ha),
      fun a ha b hb => h.distinct a (kept a ha) b (kept b hb), h.calls⟩

theorem reachable_routed (h : addressing.Reachable Undisturbed s) : Routed s.agents := by
  apply Inv.routed
  apply h.invariant
  case start =>
    rintro s rfl
    exact ⟨List.nodup_nil, fun _ h => absurd h (Option.not_mem_none _), fun _ h => absurd h List.not_mem_nil,
      fun _ h => absurd h List.not_mem_nil, fun _ h => absurd h List.not_mem_nil⟩
  case step  => exact fun _ _ _ h ok hs => h.step ok hs

end State

end Runs

-- A service account with two agents, the second on an own domain; and the first moves there.
def moved (address : String) : State where
  created := true
  account := "1"
  managed := some "jade.email"
  agents  := [
    ("2", {
      address := "writer@own.com", name := "Writer", createdAt := 1, managedAddress := some "writer@jade.email"
      serviceAccount := "1" }),
    ("1", { address, name := "Scout", managedAddress := some "scout@jade.email", serviceAccount := "1" })]

def moving (address : String) : List Action :=
  [.create "1" "jade.email" "Scout" 0, .add "2" "Writer" (some "own.com") ["own.com"] 1, .call "1" address,
   .write 0 (some [⟨"own.com", true⟩]), .provide 0 true]

theorem reachable_routed_moved : @Routed ascii (moved "news@own.com").agents :=
  let _ : Unicode := ascii
  have run : addressing.run State.Undisturbed {} (moving "news@own.com") = some (moved "news@own.com") := by
    decide +kernel
  State.reachable_routed ((System.Reachable.start rfl).run run)

-- The first agent takes the second one's address, with a tag.
theorem same_address : ¬∀ s, (@addressing ascii).Reachable (fun _ _ => True) s → @Routed ascii s.agents := by
  let _ : Unicode := ascii
  intro h
  have run : addressing.run (fun _ _ => True) {} (moving "writer+news@own.com") =
      some (moved "writer+news@own.com") := by
    decide +kernel
  have same := (h _ ((System.Reachable.start rfl).run run)).apart _ List.mem_cons_self _
    (List.mem_cons_of_mem _ List.mem_cons_self) _ List.mem_cons_self _ List.mem_cons_self (by decide +kernel)
  exact absurd (congrArg Prod.fst same) (by decide)

end Kaluta.Primitive
