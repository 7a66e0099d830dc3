import Kaluta.RateLimit.Cidr

namespace Kaluta.RateLimit

-- `HeaderValue::to_str`: the text of a value all of whose bytes are visible ASCII.
def isVisible (b : UInt8) : Bool :=
  32 ≤ b && b < 127 || b = 9

def legible (value : List UInt8) : Bool :=
  value.all isVisible

def toText (value : List UInt8) : List Char :=
  value.map fun b => Char.ofNat b.toNat

def toStr (value : List UInt8) : Option (List Char) :=
  if legible value then some (toText value) else none

def isTrusted (trusted : List Cidr) (ip : IpAddr) : Bool :=
  trusted.any (·.contains ip)

-- What an entry of a chain says.
def address (entry : List Char) : Option IpAddr :=
  (IpAddr.parse (trim entry)).map canonical

-- From the right: on from what is trusted, up to what is not an address.
def nearest (trusted : List Cidr) (client : IpAddr) : List (Option IpAddr) → IpAddr
  | []              => client
  | none :: _       => client
  | some ip :: rest => if isTrusted trusted ip then nearest trusted ip rest else ip

def hex (n : Nat) : List Char :=
  Nat.toDigits 16 n

def key : IpAddr → String
  | .v4 v4 => ".".intercalate (v4.toList.map fun b => toString b.toNat)
  | .v6 v6 =>
    let segment (i : Nat) := hex ((v6.toList[2 * i]?.getD 0).toNat * 256 + (v6.toList[2 * i + 1]?.getD 0).toNat)
    String.ofList (segment 0 ++ ':' :: segment 1 ++ ':' :: segment 2 ++ ':' :: segment 3 ++ "::/64".toList)

-- The addresses of the values of `x-forwarded-for`.
def forwarded (headers : List (List UInt8)) : List (Option IpAddr) :=
  ((headers.filterMap toStr).flatMap (·.splitOn ',')).map address

-- The client's address as a bucket key.
def clientKey (peer : Option IpAddr) (headers : List (List UInt8)) (trusted : List Cidr) : String :=
  match peer.map canonical with
  | none      => "unknown"
  | some peer =>
    key (if isTrusted trusted peer then nearest trusted peer (forwarded headers).reverse else peer)

variable {trusted : List Cidr} {headers headers' : List (List UInt8)} {e : List UInt8} {r : List (List UInt8)}

-- The chain of a request, whether its values can be read or not.
def entries (headers : List (List UInt8)) : List (List UInt8) :=
  headers.flatMap (·.splitOn 44)

-- An entry that the walk from the right does not go past: malformed, or not of a trusted proxy.
def Untrusted (trusted : List Cidr) (e : List UInt8) : Prop :=
  ∀ ip, address (toText e) = some ip → isTrusted trusted ip = false

-- The chains of two requests from the first untrusted entry on.
def Agree (trusted : List Cidr) (headers headers' : List (List UInt8)) : Prop :=
  ∃ l l' e r, entries headers = l ++ e :: r ∧ entries headers' = l' ++ e :: r ∧ Untrusted trusted e

-- The values from an entry's own on are text.
def ShownFrom (e : List UInt8) (r headers : List (List UInt8)) : Prop :=
  ∃ front back m, headers = front ++ back ∧ back.all legible ∧ entries back = m ++ e :: r

@[simp]
theorem entries_append : entries (headers ++ headers') = entries headers ++ entries headers' :=
  List.flatMap_append

theorem comma_iff {b : UInt8} (h : isVisible b = true) : (Char.ofNat b.toNat == ',') = (b == 44) := by
  have small : b.toNat < 128 := by
    simp only [isVisible, Bool.or_eq_true, Bool.and_eq_true, decide_eq_true_eq, UInt8.le_iff_toNat_le,
      UInt8.lt_iff_toNat_lt, ← UInt8.toNat_inj] at h
    change 32 ≤ b.toNat ∧ b.toNat < 127 ∨ b.toNat = 9 at h
    omega
  have char : (Char.ofNat b.toNat).toNat = b.toNat := by
    rw [Char.ofNat, dif_pos (.inl (by omega))]
    rfl
  rw [Bool.eq_iff_iff, beq_iff_eq, beq_iff_eq, ← UInt8.toNat_inj]
  constructor
  · intro eq
    rw [← char, eq]
    rfl
  · intro eq
    rw [eq]
    rfl

theorem splitOn_toText (h : legible value = true) : (toText value).splitOn ',' = (value.splitOn 44).map toText := by
  induction value
  case nil => rfl
  case cons b value ih =>
    rw [legible, List.all_cons, Bool.and_eq_true] at h
    have rest : (value.map fun b => Char.ofNat b.toNat).splitOn ',' = _ := ih h.right
    rw [toText, List.map_cons, List.splitOn_cons_eq_if_modifyHead, List.splitOn_cons_eq_if_modifyHead, comma_iff h.left,
      rest]
    split
    case isTrue => rfl
    case isFalse =>
      cases value.splitOn 44 <;> rfl

theorem forwarded_append : forwarded (headers ++ headers') = forwarded headers ++ forwarded headers' := by
  simp [forwarded]

-- Of values that are text, the addresses are those of the chain.
theorem forwarded_legible (h : headers.all legible = true) :
    forwarded headers = (entries headers).map (address ∘ toText) := by
  induction headers
  case nil => rfl
  case cons value headers ih =>
    rw [List.all_cons, Bool.and_eq_true] at h
    have head : forwarded [value] = (value.splitOn 44).map (address ∘ toText) := by
      simp [forwarded, toStr, h.left, splitOn_toText h.left]
    rw [← List.singleton_append, forwarded_append, head, ih h.right, entries_append, List.map_append]
    simp [entries]

-- The walk from the right does not reach what stands to the left of an untrusted entry.
theorem nearest_append {client : IpAddr} {ip : Option IpAddr} (h : ∀ a, ip = some a → isTrusted trusted a = false) :
    nearest trusted client (r' ++ ip :: l) = nearest trusted client (r' ++ [ip]) := by
  induction r' generalizing client
  case nil =>
    cases ip
    case none   => rfl
    case some a => simp [nearest, h a rfl]
  case cons ip' _ ih =>
    cases ip'
    case none   => rfl
    case some a => simp only [List.cons_append, nearest, ih]

theorem nearest_shown {client : IpAddr} (shown : ShownFrom e r headers) (untrusted : Untrusted trusted e) :
    nearest trusted client (forwarded headers).reverse =
      nearest trusted client ((r.map (address ∘ toText)).reverse ++ [address (toText e)]) := by
  obtain ⟨front, back, m, rfl, text, chain⟩ := shown
  rw [forwarded_append, forwarded_legible text, chain, List.map_append, List.map_cons]
  simp only [List.reverse_append, List.reverse_cons, List.append_assoc, List.singleton_append]
  exact nearest_append untrusted

theorem clientKey_shown (shown : ShownFrom e r headers) (shown' : ShownFrom e r headers')
    (untrusted : Untrusted trusted e) :
    clientKey peer headers trusted = clientKey peer headers' trusted := by
  rw [clientKey, clientKey]
  cases peer.map canonical
  case none => rfl
  case some =>
    simp only [nearest_shown shown untrusted, nearest_shown shown' untrusted]

def ascii (s : String) : List UInt8 :=
  s.toList.map fun c => UInt8.ofNat c.toNat

-- Values as one behind a byte that is not text.
def hidden (headers : List (List UInt8)) : List UInt8 :=
  255 :: headers.flatMap (44 :: ·)

theorem splitOn_joined (x : List UInt8) (headers : List (List UInt8)) :
    (x ++ headers.flatMap (44 :: ·)).splitOn 44 = x.splitOn 44 ++ entries headers := by
  induction headers generalizing x
  case nil => simp [entries]
  case cons v headers ih =>
    rw [List.flatMap_cons, List.cons_append, List.splitOn_append_cons_self, ih]
    simp [entries]

theorem Agree.hide (h : ∃ e ∈ entries headers, Untrusted trusted e) (value : List UInt8) :
    Agree trusted headers [value, hidden headers] := by
  obtain ⟨e, mem, untrusted⟩ := h
  obtain ⟨l, r, eq⟩ := List.append_of_mem mem
  refine ⟨l, value.splitOn 44 ++ [255] :: l, e, r, eq, ?_, untrusted⟩
  have : (hidden headers).splitOn 44 = [[255]] ++ entries headers := splitOn_joined [255] headers
  have both : entries [value, hidden headers] = value.splitOn 44 ++ (hidden headers).splitOn 44 := by simp [entries]
  simp [both, this, eq]

theorem clientKey_hidden {value : List UInt8} (peer_trusted : isTrusted trusted (canonical peer) = true)
    (addr : forwarded [value] = [some ip]) :
    clientKey (some peer) [value, hidden headers] trusted = key ip := by
  have : forwarded [value, hidden headers] = [some ip] := by
    rw [← addr]
    have unread : legible (hidden headers) = false := by simp [legible, hidden, isVisible]
    simp [forwarded, toStr, unread, List.filterMap_cons]
  rw [clientKey, Option.map_some]
  simp only [this, peer_trusted, if_true, List.reverse_singleton, nearest, ite_self]

theorem unforged_iff {peer : IpAddr} (h : ∃ e ∈ entries headers, Untrusted trusted e) :
    (∀ headers', Agree trusted headers headers' →
      clientKey (some peer) headers' trusted = clientKey (some peer) headers trusted) ↔
    isTrusted trusted (canonical peer) = false := by
  constructor
  · intro same
    refine Bool.not_eq_true _ |>.mp fun peer_trusted => ?_
    have one := same _ (.hide h (ascii "1.1.1.1"))
    have two := same _ (.hide h (ascii "2.2.2.2"))
    rw [clientKey_hidden peer_trusted (show _ = [some (.v4 #v[1, 1, 1, 1])] by decide)] at one
    rw [clientKey_hidden peer_trusted (show _ = [some (.v4 #v[2, 2, 2, 2])] by decide), ← one] at two
    exact absurd two (by decide)
  · intro apart headers' _
    simp only [clientKey, Option.map_some, apart, Bool.false_eq_true, if_false]

-- The key is the same for requests that agree from the first untrusted entry on where it and what follows it is text.
-- Behind a trusted peer, no request's key is the one of all that agree with it. A network contains the addresses that
-- it covers, but for those of IPv4 where it is one of IPv6.
theorem clientKey_unforged_and_contains_iff (trusted : List Cidr) (peer : IpAddr) (headers : List (List UInt8))
    (c : Cidr) (ip : IpAddr) :
    (∀ peer headers' e r, ShownFrom e r headers → ShownFrom e r headers' → Untrusted trusted e →
      clientKey peer headers trusted = clientKey peer headers' trusted) ∧
    ((∃ e ∈ entries headers, Untrusted trusted e) →
      ((∀ headers', Agree trusted headers headers' →
        clientKey (some peer) headers' trusted = clientKey (some peer) headers trusted) ↔
      isTrusted trusted (canonical peer) = false)) ∧
    ((c.contains ip = true ↔ c.Covers ip) ↔
      ¬((∃ n, c.net = .v6 n) ∧ (∃ a, canonical ip = .v4 a) ∧ c.Covers ip)) := by
  refine ⟨fun _ _ _ _ shown shown' => clientKey_shown shown shown', unforged_iff, ?_⟩
  rw [contains_iff]
  tauto

theorem key_forged_and_network_lost :
    (let trusted : List Cidr := [⟨.v4 #v[127, 0, 0, 1], 32, le_rfl⟩]
    let peer : IpAddr := .v4 #v[127, 0, 0, 1]
    let honest := [ascii "203.0.113.9"]
    let forged := [255 :: ascii ",203.0.113.9"]
    Agree trusted honest forged ∧ clientKey (some peer) honest trusted = "203.0.113.9" ∧
      clientKey (some peer) forged trusted = "127.0.0.1") ∧
    ∃ c ip, Cidr.parse "::ffff:10.0.0.1".toList = .ok c ∧ IpAddr.parse "::ffff:10.0.0.1".toList = some ip ∧
      c.Covers ip ∧ c.contains ip = false := by
  refine ⟨⟨⟨[], [[255]], ascii "203.0.113.9", [], by decide, by decide, fun ip h => ?_⟩, by decide, by decide⟩,
    _, _, rfl, rfl, fun _ _ => rfl, by decide⟩
  rw [show address _ = some (.v4 #v[203, 0, 113, 9]) by decide] at h
  cases h
  decide

end Kaluta.RateLimit
