import Kaluta.Cleanup.Unsubscribe
import Mathlib.Data.List.Nodup
import Mathlib.Data.List.Pairwise

-- Where a one-click unsubscribe goes, and when it is where it may.
namespace Kaluta.Cleanup

open Guide (Unicode)

section Addresses

-- Loopback, private, shared, link-local and multicast addresses, and reserved ones: of protocols, for benchmarks, for
-- documentation, and the first and the last of all.
def Ipv4Addr.Internal (ip : Ipv4Addr) : Prop :=
  ip.a = 127 ∨ ip.a = 10 ∨ (ip.a = 172 ∧ 16 ≤ ip.b ∧ ip.b ≤ 31) ∨ (ip.a = 192 ∧ ip.b = 168) ∨
  (ip.a = 100 ∧ 64 ≤ ip.b ∧ ip.b ≤ 127) ∨ (ip.a = 169 ∧ ip.b = 254) ∨ (ip.a = 192 ∧ ip.b = 0 ∧ ip.c = 0) ∨
  (ip.a = 198 ∧ 18 ≤ ip.b ∧ ip.b ≤ 19) ∨ (ip.a = 192 ∧ ip.b = 0 ∧ ip.c = 2) ∨
  (ip.a = 198 ∧ ip.b = 51 ∧ ip.c = 100) ∨ (ip.a = 203 ∧ ip.b = 0 ∧ ip.c = 113) ∨ ip.a = 0 ∨ 224 ≤ ip.a

instance : DecidablePred Ipv4Addr.Internal :=
  fun _ => inferInstanceAs (Decidable (_ ∨ _))

-- The IPv4 address that an address of the 6to4 form carries.
def Ipv6Addr.sixToFour (ip : Ipv6Addr) : Option Ipv4Addr :=
  if ip.s0 = 0x2002 then some (.of ip.s1 ip.s2) else none

def Ipv6Addr.nat64 (ip : Ipv6Addr) : Option Ipv4Addr :=
  if ip.s0 = 0x64 ∧ ip.s1 = 0xff9b ∧ ip.s2 = 0 ∧ ip.s3 = 0 ∧ ip.s4 = 0 ∧ ip.s5 = 0 then some (.of ip.s6 ip.s7) else none

-- Multicast, unique-local, link-local and site-local addresses, those for documentation, and those that begin with
-- 96 zeros, as the loopback and the unspecified address do.
def Ipv6Addr.Reserved (ip : Ipv6Addr) : Prop :=
  ip.s0 &&& 0xff00 = 0xff00 ∨ ip.s0 &&& 0xfe00 = 0xfc00 ∨ ip.s0 &&& 0xffc0 = 0xfe80 ∨ ip.s0 &&& 0xffc0 = 0xfec0 ∨
  (ip.s0 = 0x2001 ∧ ip.s1 = 0xdb8) ∨
  (ip.s0 = 0 ∧ ip.s1 = 0 ∧ ip.s2 = 0 ∧ ip.s3 = 0 ∧ ip.s4 = 0 ∧ ip.s5 = 0)

-- All public addresses are in 2000::/3, but for the two forms whose IPv4 address is what counts. The rest is reserved,
-- such as 64:ff9b:1::/48 for NAT64 within a network, and so are two prefixes for benchmarks and for documentation.
def Ipv6Addr.isSetAside (ip : Ipv6Addr) : Bool :=
  ip.toIpv4Mapped.isNone ∧ ip.nat64.isNone ∧
    (ip.s0 &&& 0xe000 ≠ 0x2000 ∨ (ip.s0 = 0x2001 ∧ ip.s1 = 2 ∧ ip.s2 = 0) ∨ ip.s0 &&& 0xfff0 = 0x3ff0)

-- Internal addresses, and those of a form that carries one.
def IpAddr.Internal : IpAddr → Prop
  | .v4 ip => ip.Internal
  | .v6 ip =>
    ip.Reserved ∨ ip.isSetAside ∨ ip.toIpv4Mapped.any (·.Internal) ∨ ip.nat64.any (·.Internal) ∨
    ip.sixToFour.any (·.Internal)

-- Those that the check may let through.
def IpAddr.isOverlooked : IpAddr → Bool
  | .v4 _  => false
  | .v6 ip => ip.isSetAside || ip.sixToFour.any (·.Internal)

theorem publicV4_internal {ip : Ipv4Addr} (h : publicV4 ip = true) : ¬ip.Internal := by
  simp only [publicV4, Ipv4Addr.isLoopback, Ipv4Addr.isPrivate, Ipv4Addr.isLinkLocal, Ipv4Addr.isMulticast,
    Ipv4Addr.isDocumentation, Bool.not_eq_true', Bool.or_eq_false_iff, decide_eq_false_iff_not] at h
  unfold Ipv4Addr.Internal
  grind

theorem IpAddr.internal_of_overlooked {ip : IpAddr} (h : ip.isOverlooked = true) : ip.Internal := by
  cases ip with
  | v4 ip => cases h
  | v6 ip =>
    obtain h | h := (Bool.or_eq_true _ _).mp h
    · exact .inr <| .inl h
    · exact .inr <| .inr <| .inr <| .inr h

theorem any_not_of_forall {o : Option Ipv4Addr} (h : ∀ ip, o = some ip → publicV4 ip = true) :
    ¬o.any (·.Internal) = true := by
  cases o with
  | none    => simp
  | some ip => simpa using publicV4_internal (h ip rfl)

section V6

variable {ip : Ipv6Addr} {v : Ipv4Addr}

theorem Ipv6Addr.toIpv4Mapped_segments (h : ip.toIpv4Mapped = some v) : ip.s0 = 0 ∧ ip.s5 = 0xffff := by
  obtain ⟨⟨s0, _, _, _, _, s5⟩, _⟩ := Option.ite_none_right_eq_some.mp h
  exact ⟨s0, s5⟩

theorem Ipv6Addr.nat64_segments (h : ip.nat64 = some v) :
    ip.s0 = 0x64 ∧ ip.s1 = 0xff9b ∧ ip.s2 = 0 ∧ ip.s3 = 0 ∧ ip.s4 = 0 ∧ ip.s5 = 0 ∧ Ipv4Addr.of ip.s6 ip.s7 = v := by
  obtain ⟨⟨s0, s1, s2, s3, s4, s5⟩, v⟩ := Option.ite_none_right_eq_some.mp h
  exact ⟨s0, s1, s2, s3, s4, s5, Option.some.inj v⟩

-- A reserved address is of neither form that the check looks into.
theorem Ipv6Addr.Reserved.not_mapped (h : ip.Reserved) : ip.toIpv4Mapped = none := by
  cases found : ip.toIpv4Mapped
  case none   => rfl
  case some v =>
    obtain ⟨s0, s5⟩ := toIpv4Mapped_segments found
    rw [Reserved, s0, s5] at h
    rcases h with h | h | h | h | ⟨h, _⟩ | ⟨_, _, _, _, _, h⟩ <;> exact absurd h (by decide)

theorem Ipv6Addr.Reserved.s0_ne (h : ip.Reserved) : ip.s0 ≠ 0x64 := by
  intro s0
  rw [Reserved, s0] at h
  rcases h with h | h | h | h | ⟨h, _⟩ | ⟨h, _⟩ <;> exact absurd h (by decide)

theorem publicAddress_reserved (h : publicAddress (.v6 ip) = true) : ¬ip.Reserved := by
  intro reserved
  simp only [publicAddress, reserved.not_mapped] at h
  rw [if_neg fun nat => reserved.s0_ne nat.left] at h
  simp only [Ipv6Addr.isMulticast, Bool.not_eq_true', Bool.or_eq_false_iff, decide_eq_false_iff_not] at h
  obtain ⟨⟨⟨⟨⟨⟨⟨_, _⟩, multicast⟩, uniqueLocal⟩, linkLocal⟩, siteLocal⟩, zeros⟩, documentation⟩ := h
  rcases reserved with i | i | i | i | i | i
  · exact multicast i
  · exact uniqueLocal i
  · exact linkLocal i
  · exact siteLocal i
  · exact documentation i
  · exact zeros i

theorem publicAddress_mapped (h : publicAddress (.v6 ip) = true) (found : ip.toIpv4Mapped = some v) :
    publicV4 v = true := by
  simpa only [publicAddress, found] using h

theorem publicAddress_nat64 (h : publicAddress (.v6 ip) = true) (found : ip.nat64 = some v) : publicV4 v = true := by
  obtain ⟨s0, s1, s2, s3, s4, s5, rfl⟩ := Ipv6Addr.nat64_segments found
  have unmapped : ip.toIpv4Mapped = none := by
    cases mapped : ip.toIpv4Mapped
    case none   => rfl
    case some v => cases (Ipv6Addr.toIpv4Mapped_segments mapped).left.symm.trans s0
  simp only [publicAddress, unmapped] at h
  rwa [if_pos ⟨s0, s1, s2, s3, s4, s5⟩] at h

end V6

-- The check of addresses overlooks internal ones only where they carry one as 6to4, or are in a prefix that it does not
-- know.
theorem publicAddress_internal {ip : IpAddr} (h : publicAddress ip = true) :
    ip.Internal ↔ ip.isOverlooked = true := by
  refine ⟨fun i => ?_, IpAddr.internal_of_overlooked⟩
  cases ip with
  | v4 ip => exact (publicV4_internal h i).elim
  | v6 ip =>
    rcases i with reserved | setAside | mapped | nat64 | sixToFour
    · exact (publicAddress_reserved h reserved).elim
    · exact (Bool.or_eq_true _ _).mpr (.inl setAside)
    · exact (any_not_of_forall (fun _ => publicAddress_mapped h) mapped).elim
    · exact (any_not_of_forall (fun _ => publicAddress_nat64 h) nat64).elim
    · exact (Bool.or_eq_true _ _).mpr (.inr sixToFour)

end Addresses

section Targets

variable [Unicode] {parse : String → Option Url} {view : CleanupView} {t : CleanupUnsubscribeTarget} {turn : Turn}

omit [Unicode] in
theorem method_oneClick {header : String} {post : Option String} {domains : List String} {url : Url}
    (h : method parse header post domains = some (.oneClick url)) :
    postable url = true ∧ url.hostStr.any (registrable · ∈ domains) = true := by
  have mailto : ∀ o : Option Mailto, o.map Method.mailto ≠ some (.oneClick url) := by simp
  unfold method at h
  split at h
  case isTrue =>
    dsimp only at h
    split at h
    case h_1 found =>
      cases h
      obtain ⟨u, _, found⟩ := List.exists_of_findSome?_eq_some found
      obtain ⟨found, owned⟩ := Option.filter_eq_some_iff.mp found
      exact ⟨(Option.filter_eq_some_iff.mp found).2, owned⟩
    case h_2 => exact (mailto _ h).elim
  case isFalse => exact (mailto _ h).elim

theorem resolveOne_method {kind : UnsubscribeKind} {byList : List (String × Resolved)} {row : ListHeadersOf}
    {l : String × Resolved} (h : l ∈ resolveOne parse kind byList row) :
    (∃ l' ∈ byList, l'.2.method = l.2.method) ∨ methodOf parse row = some l.2.method := by
  unfold resolveOne at h
  split at h
  case h_1 => exact .inl ⟨l, h, rfl⟩
  case h_2 method found =>
    dsimp only at h
    split at h
    · obtain ⟨l', hl', rfl⟩ := List.mem_map.mp h
      refine .inl ⟨l', hl', ?_⟩
      split <;> rfl
    · rcases List.mem_append.mp h with h | h
      · exact .inl ⟨l, h, rfl⟩
      · cases List.mem_singleton.mp h
        exact .inr found

theorem foldl_resolveOne_method {kind : UnsubscribeKind} {rows : List ListHeadersOf} :
    ∀ {byList : List (String × Resolved)} {l : String × Resolved}, l ∈ rows.foldl (resolveOne parse kind) byList →
      (∃ l' ∈ byList, l'.2.method = l.2.method) ∨ ∃ row ∈ rows, methodOf parse row = some l.2.method := by
  induction rows with
  | nil            => exact fun h => .inl ⟨_, h, rfl⟩
  | cons row _ ih =>
    intro byList l h
    rcases ih h with ⟨l', hl', e⟩ | ⟨r, hr, e⟩
    · rcases resolveOne_method hl' with ⟨l'', hl'', e'⟩ | e'
      · exact .inl ⟨l'', hl'', e'.trans e⟩
      · exact .inr ⟨row, .head _, e'.trans (congrArg some e)⟩
    · exact .inr ⟨r, .tail _ hr, e⟩

-- The method of a target is one of its rows' own.
theorem resolve_method {rows : List ListHeadersOf} {l : String × Resolved} (h : l ∈ resolve parse view rows) :
    ∃ row ∈ rows, methodOf parse row = some l.2.method := by
  unfold resolve at h
  split at h
  case h_1 => cases h
  case h_2 =>
    rcases foldl_resolveOne_method h with ⟨_, h, _⟩ | h
    · cases h
    · exact h

theorem current_eq_some {list : String} {url : Url} {one : Resolved}
    (h : current parse view t turn = some (list, url, one)) :
    (turn.rows t.keys).map (·.messageId) = t.messageIds ∧ t.method = .oneClick (shownHost url) ∧
    ∃ row ∈ turn.rows t.keys, methodOf parse row = some (.oneClick url) := by
  unfold current at h
  dsimp only at h
  split at h
  case h_2 => cases h
  case h_1 list' one' host resolved confirmed =>
    obtain ⟨newest, resolved⟩ : (turn.rows t.keys).map (·.messageId) = t.messageIds ∧
        resolve parse view (turn.rows t.keys) = [(list', one')] := by
      split at resolved
      · exact ⟨‹_›, resolved⟩
      · cases resolved
    split at h
    case h_2 => cases h
    case h_1 url' m =>
      obtain ⟨rfl, e⟩ := Option.ite_none_right_eq_some.mp h
      cases e
      obtain ⟨row, hr, e⟩ := resolve_method (l := (list, one)) (resolved ▸ List.mem_singleton_self _)
      exact ⟨newest, confirmed, row, hr, e.trans (congrArg some m)⟩

omit [Unicode] in
theorem postResolved_post {url : Url} {p : Post} :
    (postResolved url turn).1 = some p ↔
      postable url = true ∧ ∃ addrs, turn.lookup (url.hostStr.getD "the list") = some addrs ∧ addrs ≠ [] ∧
        (∀ a ∈ addrs, publicAddress a = true) ∧ turn.client = none ∧
        p = { client := { host := url.hostStr.getD "the list", addrs }, url, body := ONE_CLICK_BODY } := by
  unfold postResolved checkedAddresses
  grind

omit [Unicode] in
theorem postable_eq_true {url : Url} (h : postable url = true) :
    url.username = "" ∧ url.password = none ∧ url.scheme = "https" ∧ url.port = none := by
  unfold postable at h
  split at h
  case isTrue => cases h
  case isFalse credentials =>
    obtain ⟨username, password⟩ := not_or.mp credentials
    split at h
    case h_1 => cases h
    case h_2 =>
      split at h
      · cases h
      · simp only [Bool.and_eq_true, decide_eq_true_eq, Option.isNone_iff_eq_none] at h
        exact ⟨not_not.mp username, by simpa using password, h.1.1.1, h.1.1.2⟩

end Targets

section OneClick

variable [Unicode] (parse : String → Option Url) (view : CleanupView)

-- What a POST for a confirmed target may be.
structure Allowed (t : CleanupUnsubscribeTarget) (turn : Turn) (p : Post) : Prop where
  https     : p.url.scheme = "https"
  port      : p.url.port.getD 443 = 443
  username  : p.url.username = ""
  password  : p.url.password = none
  confirmed : t.method = .oneClick (shownHost p.url)
  owned     : ∃ row ∈ turn.rows t.keys, p.url.hostStr.any fun host =>
    registrable host ∈ owners row.listId (row.sender.map (·.email))
  newest    : (turn.rows t.keys).map (·.messageId) = t.messageIds
  lookup    : turn.lookup p.client.host = some p.client.addrs
  addrs     : p.client.addrs ≠ []
  outside   : ∀ a ∈ p.client.addrs, ¬a.Internal
  redirects : p.client.redirects = false

structure OneClickOnly (targets : List CleanupUnsubscribeTarget) (turns : List Turn) : Prop where
  allowed : ∀ p ∈ (cleanupUnsubscribe parse view targets turns).posts,
    ∃ pair ∈ (targets.filter (·.isOneClick)).zip turns, Allowed pair.1 pair.2 p.2
  once    : ((cleanupUnsubscribe parse view targets turns).posts.map Prod.fst).Nodup

-- A target that is as it was shown leads to `list`, and its host's name to `addrs`, which pass the check.
def Leads (list : String) (addrs : List IpAddr) (pair : CleanupUnsubscribeTarget × Turn) : Prop :=
  ∃ url one, current parse view pair.1 pair.2 = some (list, url, one) ∧
    pair.2.lookup (url.hostStr.getD "the list") = some addrs ∧ addrs ≠ [] ∧ (∀ a ∈ addrs, publicAddress a = true) ∧
    pair.2.client = none

variable {parse view} {targets : List CleanupUnsubscribeTarget} {turns : List Turn} {t : CleanupUnsubscribeTarget}
  {turn : Turn} {list : String} {p : Post}

theorem unsubscribeAll_posts : ∀ {targets : List CleanupUnsubscribeTarget} {turns : List Turn},
    (unsubscribeAll parse view targets turns).posts =
      (targets.zip turns).flatMap fun pair => (unsubscribe parse view pair.1 pair.2).posts
  | [], _                 => by simp [unsubscribeAll]
  | _ :: _, []            => by simp [unsubscribeAll]
  | t :: targets, u :: us => by simp [unsubscribeAll, unsubscribeAll_posts]

-- A target's POST: to the address that its newest message gives now, at the addresses that the name has now.
theorem mem_unsubscribe_posts :
    (list, p) ∈ (unsubscribe parse view t turn).posts ↔
      ∃ one, current parse view t turn = some (list, p.url, one) ∧ (postResolved p.url turn).1 = some p := by
  unfold unsubscribe
  split
  case h_1 m => simp [current, m]
  case h_2 m =>
    split
    case h_1 none_ => simp [none_]
    case h_2 some_ =>
      simp only [some_, Option.mem_toList, Option.map_eq_some_iff, Prod.mk.injEq, Option.some.injEq]
      constructor
      · rintro ⟨p', hp', rfl, rfl⟩
        obtain ⟨_, _, _, _, _, _, rfl⟩ := postResolved_post.mp hp'
        exact ⟨_, ⟨rfl, rfl, rfl⟩, hp'⟩
      · rintro ⟨_, ⟨rfl, rfl, rfl⟩, hp'⟩
        exact ⟨p, hp', rfl, rfl⟩

theorem unsubscribe_posts_length : (unsubscribe parse view t turn).posts.length ≤ 1 := by
  unfold unsubscribe
  split
  case h_1 => simp
  case h_2 =>
    split
    case h_1 => simp
    case h_2 url _ _ => cases (postResolved url turn).1 <;> simp

theorem current_postable {url : Url} {one : Resolved} (h : current parse view t turn = some (list, url, one)) :
    ∃ row ∈ turn.rows t.keys, postable url = true ∧ url.hostStr.any fun host =>
      registrable host ∈ owners row.listId (row.sender.map (·.email)) := by
  obtain ⟨_, _, row, hr, h⟩ := current_eq_some h
  obtain ⟨_, _, h⟩ := Option.bind_eq_some_iff.mp h
  obtain ⟨ok, owned⟩ := method_oneClick h
  exact ⟨row, hr, ok, owned⟩

theorem leads_iff {addrs : List IpAddr} :
    Leads parse view list addrs (t, turn) ↔
      ∃ p, (list, p) ∈ (unsubscribe parse view t turn).posts ∧ p.client.addrs = addrs := by
  simp only [mem_unsubscribe_posts, postResolved_post]
  constructor
  · rintro ⟨url, one, h, found, ne, ok, client⟩
    obtain ⟨_, _, postable_, _⟩ := current_postable h
    exact ⟨{ client := { host := url.hostStr.getD "the list", addrs }, url, body := ONE_CLICK_BODY },
      ⟨one, h, postable_, addrs, found, ne, ok, client, rfl⟩, rfl⟩
  · rintro ⟨p, ⟨one, h, _, addrs', found, ne, ok, client, e⟩, rfl⟩
    have e' : p.client.addrs = addrs' := by rw [e]
    exact ⟨p.url, one, h, e' ▸ found, e' ▸ ne, e' ▸ ok, client⟩

theorem allowed_iff (h : (list, p) ∈ (unsubscribe parse view t turn).posts) :
    Allowed t turn p ↔ ∀ a ∈ p.client.addrs, a.isOverlooked = false := by
  obtain ⟨one, h, posted⟩ := mem_unsubscribe_posts.mp h
  obtain ⟨row, hr, ok, owned⟩ := current_postable h
  obtain ⟨newest, confirmed, _⟩ := current_eq_some h
  obtain ⟨_, addrs, found, ne, publicAddrs, _, e⟩ := postResolved_post.mp posted
  obtain ⟨username, password, https, port⟩ := postable_eq_true ok
  have eaddrs : p.client.addrs = addrs := by rw [e]
  have ehost : p.client.host = p.url.hostStr.getD "the list" := by rw [e]
  have eredirects : p.client.redirects = false := by rw [e]
  have internal : ∀ a ∈ p.client.addrs, (a.Internal ↔ a.isOverlooked = true) :=
    fun a ha => publicAddress_internal (publicAddrs a (eaddrs ▸ ha))
  constructor
  · intro allowed a ha
    simpa [internal a ha] using allowed.outside a ha
  · intro known
    exact {
      https, username, password, confirmed, newest
      port      := by simp [port]
      owned     := ⟨row, hr, owned⟩
      lookup    := by rw [ehost, eaddrs, found]
      addrs     := eaddrs ▸ ne
      outside   := fun a ha => by simp [internal a ha, known a ha]
      redirects := eredirects
    }

theorem cleanupUnsubscribe_posts (h : invalid (targets.filter (·.isOneClick)) = false) :
    (cleanupUnsubscribe parse view targets turns).posts =
      ((targets.filter (·.isOneClick)).zip turns).flatMap fun pair => (unsubscribe parse view pair.1 pair.2).posts := by
  rw [cleanupUnsubscribe, if_neg (by simp [h]), unsubscribeAll_posts]

theorem lists_nodup_iff {pairs : List (CleanupUnsubscribeTarget × Turn)} :
    ((pairs.flatMap fun pair => (unsubscribe parse view pair.1 pair.2).posts).map Prod.fst).Nodup ↔
      pairs.Pairwise fun p q => ∀ list as bs, Leads parse view list as p → ¬Leads parse view list bs q := by
  have single : ∀ pair : CleanupUnsubscribeTarget × Turn,
      ((unsubscribe parse view pair.1 pair.2).posts.map Prod.fst).Nodup := fun pair => by
    have : (unsubscribe parse view pair.1 pair.2).posts.length ≤ 1 := unsubscribe_posts_length
    match h : (unsubscribe parse view pair.1 pair.2).posts with
    | []          => simp
    | [_]         => simp
    | _ :: _ :: _ => simp [h] at this
  rw [List.map_flatMap, List.nodup_flatMap]
  refine ⟨fun h => h.2.imp fun {p q} disjoint => ?_, fun h => ⟨fun pair _ => single pair, h.imp fun {p q} apart => ?_⟩⟩
  · intro list as bs hp hq
    obtain ⟨_, hp, _⟩ := leads_iff.mp hp
    obtain ⟨_, hq, _⟩ := leads_iff.mp hq
    exact disjoint (List.mem_map.mpr ⟨_, hp, rfl⟩) (List.mem_map.mpr ⟨_, hq, rfl⟩)
  · intro list hp hq
    obtain ⟨⟨_, post⟩, inP, rfl⟩ := List.mem_map.mp hp
    obtain ⟨⟨_, post'⟩, inQ, rfl⟩ := List.mem_map.mp hq
    exact apart _ _ _ (leads_iff.mpr ⟨post, inP, rfl⟩) (leads_iff.mpr ⟨post', inQ, rfl⟩)

end OneClick

section Examples

def news : CleanupUnsubscribeTarget where
  keys       := ["news.example.com"]
  messageIds := ["m1"]
  name       := "News"
  method     := .oneClick "news.example.com"

def newsParse (s : String) : Option Url :=
  if s = "https://news.example.com/leave" then
    some { scheme := "https", hostStr := some "news.example.com", text := s }
  else none

def newsTurn (addr : IpAddr) : Turn where
  rows   := fun _ => [{
    key             := "news.example.com"
    messageId       := "m1"
    listId          := some "news.example.com"
    listName        := some "News"
    sender          := none
    unsubscribe     := some "<https://news.example.com/leave>"
    unsubscribePost := some ONE_CLICK_BODY
  }]
  lookup := fun _ => some [addr]

-- A name that leads to an internal address that the check overlooks.
theorem not_only_of_overlooked {ip : IpAddr} (overlooked : ip.isOverlooked = true)
    (posted : (@cleanupUnsubscribe newsParse Guide.ascii .mailingList [news] [newsTurn ip]).posts.any
      (·.2.client.addrs = [ip]) = true) :
    ¬@OneClickOnly Guide.ascii newsParse .mailingList [news] [newsTurn ip] := by
  intro h
  obtain ⟨p, hp, addrs⟩ := List.any_eq_true.mp posted
  obtain ⟨_, _, allowed⟩ := @OneClickOnly.allowed Guide.ascii _ _ _ _ h p hp
  exact allowed.outside ip (of_decide_eq_true addrs ▸ List.mem_singleton_self ip) (IpAddr.internal_of_overlooked overlooked)

end Examples

end Kaluta.Cleanup
