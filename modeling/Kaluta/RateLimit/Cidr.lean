import Kaluta.Search.Parse
import Mathlib.Tactic.IntervalCases

-- Addresses, and the networks that an operator trusts as proxies.
namespace Kaluta.RateLimit

abbrev Ipv4Addr := Vector UInt8 4

abbrev Ipv6Addr := Vector UInt8 16

inductive IpAddr
  | v4 (octets : Ipv4Addr)
  | v6 (octets : Ipv6Addr)
  deriving DecidableEq

-- The standard library's `FromStr` of addresses: each reader gives what it read and the rest.
section Readers

variable {α : Type}

def readGivenChar (c : Char) : List Char → Option (List Char)
  | d :: cs => if d = c then some cs else none
  | []      => none

def toDigit (radix : Nat) (c : Char) : Option Nat :=
  let n := c.toNat
  let digit :=
    if 48 ≤ n ∧ n ≤ 57 then n - 48
    else if 97 ≤ n ∧ n ≤ 102 then n - 87
    else if 65 ≤ n ∧ n ≤ 70 then n - 55
    else radix
  if digit < radix then some digit else none

-- A number of at most `maxDigits` digits, below the limit of its type.
def readNumber (radix maxDigits limit : Nat) (allowZeroPrefix : Bool) (cs : List Char) : Option (Nat × List Char) :=
  let digits := (cs.takeWhile fun c => (toDigit radix c).isSome).filterMap (toDigit radix)
  let result := digits.foldl (fun result digit => result * radix + digit) 0
  if digits.length > maxDigits then none
  else if digits = [] then none
  else if !allowZeroPrefix && cs.head? = some '0' && digits.length > 1 then none
  else if result < limit then some (result, cs.drop digits.length)
  else none

-- What stands behind a separator, which the first has not.
def readSeparator (sep : Char) (index : Nat) (inner : List Char → Option (α × List Char)) (cs : List Char) :
    Option (α × List Char) :=
  if 0 < index then readGivenChar sep cs >>= inner else inner cs

def readIpv4Addr (cs : List Char) : Option (Ipv4Addr × List Char) := do
  let octet (i : Nat) := readSeparator '.' i (readNumber 10 3 256 false)
  let (a, cs) ← octet 0 cs
  let (b, cs) ← octet 1 cs
  let (c, cs) ← octet 2 cs
  let (d, cs) ← octet 3 cs
  return (#v[.ofNat a, .ofNat b, .ofNat c, .ofNat d], cs)

-- The groups from the `i`th on where there is room for `room` more, and whether an IPv4 address ended them.
def readGroups (i : Nat) : Nat → List Char → List UInt8 × Bool × List Char
  | 0, cs        => ([], false, cs)
  | room + 1, cs =>
    match if 0 < room then readSeparator ':' i readIpv4Addr cs else none with
    | some (v4, cs) => (v4.toList, true, cs)
    | none          =>
      match readSeparator ':' i (readNumber 16 4 65536 true) cs with
      | some (group, cs) =>
        let (octets, ipv4, cs) := readGroups (i + 1) room cs
        (.ofNat (group / 256) :: .ofNat (group % 256) :: octets, ipv4, cs)
      | none             => ([], false, cs)

def ofOctets (octets : List UInt8) : Option Ipv6Addr :=
  if h : octets.length = 16 then some ⟨octets.toArray, h⟩ else none

def readIpv6Addr (cs : List Char) : Option (Ipv6Addr × List Char) := do
  let (head, headIpv4, cs) := readGroups 0 8 cs
  if head.length = 16 then
    return (← ofOctets head, cs)
  -- An IPv4 part is not allowed before the `::`.
  if headIpv4 then none
  let cs ← readGivenChar ':' cs
  let cs ← readGivenChar ':' cs
  -- The `::` stands for one group at least.
  let (tail, _, cs) := readGroups 0 (8 - (head.length / 2 + 1)) cs
  return (← ofOctets (head ++ List.replicate (16 - head.length - tail.length) 0 ++ tail), cs)

def IpAddr.parse (cs : List Char) : Option IpAddr :=
  match (readIpv4Addr cs).map (Prod.map IpAddr.v4 id) <|> (readIpv6Addr cs).map (Prod.map IpAddr.v6 id) with
  | some (ip, []) => some ip
  | _             => none

end Readers

-- The bits of an IPv4 address, or of an IPv6 address.
def IpAddr.width : IpAddr → Nat
  | v4 _ => 32
  | v6 _ => 128

-- What stands before the octets of an IPv4 address that is mapped into IPv6.
def mappedPrefix : Vector UInt8 12 := #v[0, 0, 0, 0, 0, 0, 0, 0, 0, 0, 255, 255]

def toIpv4Mapped (v6 : Ipv6Addr) : Option Ipv4Addr :=
  if v6.toList.take 12 = mappedPrefix.toList then some #v[v6[12], v6[13], v6[14], v6[15]] else none

-- An IPv4 address mapped into IPv6 (`::ffff:1.2.3.4`) as itself.
def canonical (ip : IpAddr) : IpAddr :=
  match ip with
  | .v6 v6 => (toIpv4Mapped v6).elim ip .v4
  | v4     => v4

-- A network the operator trusts as a proxy: `10.0.0.0/8`, `::1/128`, or an address alone.
structure Cidr where
  net    : IpAddr
  length : Nat
  le     : length ≤ net.width

inductive CidrError
  | notAnAddress (s : List Char)
  | badLength (s : List Char)

def trim (cs : List Char) : List Char :=
  ((cs.dropWhile isWhitespace).reverse.dropWhile isWhitespace).reverse

def Cidr.parse (s : List Char) : Except CidrError Cidr :=
  let s := trim s
  let (addr, length) := (splitOnce '/' s).elim (s, none) fun (a, p) => (a, some p)
  match IpAddr.parse addr with
  | none     => throw (.notAnAddress s)
  | some net =>
    match length with
    | none   => pure ⟨net, net.width, le_rfl⟩
    | some p =>
      match parseUnsigned 256 p with
      | none        => throw (.badLength s)
      | some length => if h : length ≤ net.width then pure ⟨net, length, h⟩ else throw (.badLength s)

-- The bounds are the ones of the slices and indices.
def prefixEq (a b : Vector UInt8 n) (bits : Nat) (h : bits ≤ 8 * n) : Bool :=
  let whole := bits / 8
  let rest := bits % 8
  if a.toList.take whole ≠ b.toList.take whole then false
  else if partly : rest = 0 then true
  else
    have : whole < n := by omega
    (a[whole] ^^^ b[whole]) >>> (8 - UInt8.ofNat rest) = 0

def Cidr.contains (c : Cidr) (ip : IpAddr) : Bool :=
  match c, canonical ip with
  | ⟨.v4 n, length, le⟩, .v4 a => prefixEq n a length le
  | ⟨.v6 n, length, le⟩, .v6 a => prefixEq n a length le
  | _, _                       => false

theorem octet_eq_iff {x y : UInt8} : x = y ↔ ∀ j < 8, x.toBitVec.getMsbD j = y.toBitVec.getMsbD j := by
  constructor
  · rintro rfl _ _
    rfl
  · intro bits
    exact UInt8.toBitVec_inj.mp (BitVec.eq_of_getMsbD_eq fun j h => bits j h)

-- Nothing is left of the octets' difference behind a shift just where their first bits are equal.
theorem shifted_xor_iff {x y : UInt8} (pos : 0 < rest) (h : rest < 8) :
    (x ^^^ y) >>> (8 - UInt8.ofNat rest) = 0 ↔ ∀ j < rest, x.toBitVec.getMsbD j = y.toBitVec.getMsbD j := by
  have shift : ((8 - UInt8.ofNat rest).toBitVec % 8).toNat = 8 - rest := by
    interval_cases rest <;> rfl
  have shifted {j : Nat} : ((x ^^^ y) >>> (8 - UInt8.ofNat rest)).toBitVec.getLsbD j =
      (x.toBitVec.getLsbD (8 - rest + j) ^^ y.toBitVec.getLsbD (8 - rest + j)) := by
    rw [UInt8.toBitVec_shiftRight, UInt8.toBitVec_xor, BitVec.ushiftRight_eq', shift, BitVec.getLsbD_ushiftRight,
      BitVec.getLsbD_xor]
  have msb {z : UInt8} {j : Nat} (lt : j < rest) :
      z.toBitVec.getMsbD j = z.toBitVec.getLsbD (8 - rest + (rest - 1 - j)) := by
    rw [BitVec.getMsbD_eq_getLsbD, decide_eq_true (by omega), Bool.true_and]
    congr 1
    omega
  constructor
  · intro zero j lt
    have := shifted (j := rest - 1 - j)
    rw [zero, ← msb lt, ← msb lt] at this
    simpa using this
  · intro eq
    rw [← UInt8.toBitVec_inj]
    refine BitVec.eq_of_getLsbD_eq fun j lt => ?_
    rw [shifted]
    by_cases lt : j < rest
    · have := eq (rest - 1 - j) (by omega)
      rw [msb (by omega), msb (by omega), show rest - 1 - (rest - 1 - j) = j by omega] at this
      simp [this]
    · rw [BitVec.getLsbD_of_ge _ _ (by omega), BitVec.getLsbD_of_ge _ _ (by omega)]
      simp

-- The `i`th bit of octets.
def bit (octets : Vector UInt8 n) (i : Nat) : Bool :=
  (octets.toList[i / 8]?.getD 0).toBitVec.getMsbD (i % 8)

theorem bit_eq {octets : Vector UInt8 n} (lt : k < n) (div : i / 8 = k) :
    bit octets i = octets[k].toBitVec.getMsbD (i % 8) := by
  have : k < octets.toList.length := by rwa [octets.length_toList]
  rw [bit, div, List.getElem?_eq_getElem this, Option.getD_some, Vector.getElem_toList]

theorem take_eq_iff {a b : Vector UInt8 n} (h : whole ≤ n) :
    a.toList.take whole = b.toList.take whole ↔ ∀ i < 8 * whole, bit a i = bit b i := by
  constructor
  · intro eq i lt
    have at_ : i / 8 < whole := by omega
    have := congrArg (·[i / 8]?) eq
    simp only [List.getElem?_take, if_pos at_] at this
    rw [bit, bit, this]
  · intro eq
    refine List.ext_getElem? fun k => ?_
    rw [List.getElem?_take, List.getElem?_take]
    split
    case isFalse   => rfl
    case isTrue lt =>
      have ha : k < a.toList.length := by rw [a.length_toList]; omega
      have hb : k < b.toList.length := by rw [b.length_toList]; omega
      rw [List.getElem?_eq_getElem ha, List.getElem?_eq_getElem hb, Vector.getElem_toList, Vector.getElem_toList]
      refine congrArg some (octet_eq_iff.mpr fun j hj => ?_)
      have div : (8 * k + j) / 8 = k := by omega
      have mod : (8 * k + j) % 8 = j := by omega
      have := eq (8 * k + j) (by omega)
      rwa [bit_eq (by omega) div, bit_eq (by omega) div, mod] at this

-- The first bits are equal: those of the whole octets, and those of the one behind them.
theorem prefixEq_iff {a b : Vector UInt8 n} (h : bits ≤ 8 * n) :
    prefixEq a b bits h = true ↔ ∀ i < bits, bit a i = bit b i := by
  have whole : a.toList.take (bits / 8) = b.toList.take (bits / 8) ↔ _ := take_eq_iff (by omega)
  simp only [prefixEq]
  by_cases heads : a.toList.take (bits / 8) = b.toList.take (bits / 8)
  · rw [if_neg (not_not.mpr heads)]
    have heads := whole.mp heads
    split
    case isTrue even    =>
      simp only [true_iff]
      exact fun i lt => heads i (by omega)
    case isFalse partly =>
      have lt : bits / 8 < n := by omega
      rw [decide_eq_true_iff, shifted_xor_iff (Nat.pos_of_ne_zero partly) (Nat.mod_lt _ (by decide))]
      constructor
      · intro tail i hi
        by_cases head : i < 8 * (bits / 8)
        · exact heads i head
        · have div : i / 8 = bits / 8 := by omega
          rw [bit_eq lt div, bit_eq lt div]
          exact tail _ (by omega)
      · intro all j hj
        have div : (8 * (bits / 8) + j) / 8 = bits / 8 := by omega
        have mod : (8 * (bits / 8) + j) % 8 = j := by omega
        have := all (8 * (bits / 8) + j) (by omega)
        rwa [bit_eq lt div, bit_eq lt div, mod] at this
  · rw [if_pos heads]
    simp only [Bool.false_eq_true, false_iff]
    exact fun all => heads (whole.mpr fun i lt => all i (by omega))

-- An address as one of IPv6, where an IPv4 address is the one it is mapped to.
def unified : IpAddr → Ipv6Addr
  | .v4 octets => mappedPrefix ++ octets
  | .v6 octets => octets

-- The first bits of an IPv4 network come behind those that all mapped addresses have.
def Cidr.bits (c : Cidr) : Nat :=
  128 - c.net.width + c.length

-- An address is in a network where the network's first bits are its own.
def Cidr.Covers (c : Cidr) (ip : IpAddr) : Prop :=
  ∀ i < c.bits, bit (unified c.net) i = bit (unified ip) i

theorem unified_of_mapped {v6 : Ipv6Addr} (h : toIpv4Mapped v6 = some v4) : unified (.v4 v4) = v6 := by
  rw [toIpv4Mapped] at h
  split at h
  case isFalse       => cases h
  case isTrue mapped =>
    cases h
    refine Vector.toList_inj.mp ?_
    have rest : v6.toList.drop 12 = [v6[12], v6[13], v6[14], v6[15]] := by
      refine List.ext_getElem (by simp) fun k hk _ => ?_
      have : k < 4 := by simpa using hk
      interval_cases k <;> simp
    rw [← List.take_append_drop 12 v6.toList, mapped, rest]
    exact Vector.toList_append

theorem unified_canonical (ip : IpAddr) : unified (canonical ip) = unified ip := by
  cases ip
  case v4 => rfl
  case v6 octets =>
    rw [canonical]
    cases h : toIpv4Mapped octets
    case none => rfl
    case some => exact unified_of_mapped h

-- What is canonical and of IPv6 is not a mapped address.
theorem canonical_eq_v6 (h : canonical ip = .v6 octets) : toIpv4Mapped octets = none := by
  cases ip
  case v4 => cases h
  case v6 v6 =>
    rw [canonical] at h
    cases mapped : toIpv4Mapped v6 <;> rw [mapped] at h <;> cases h
    exact mapped

theorem bit_mapped {v4 : Ipv4Addr} (h : i < 96) : bit (unified (.v4 v4)) i = bit mappedPrefix i := by
  have lt : i / 8 < mappedPrefix.toList.length := by
    change i / 8 < 12
    omega
  rw [bit, bit, unified, Vector.toList_append, List.getElem?_append_left lt]

theorem bit_v4 {v4 : Ipv4Addr} : bit (unified (.v4 v4)) (96 + i) = bit v4 i := by
  have div : (96 + i) / 8 = mappedPrefix.toList.length + i / 8 := by
    change _ = 12 + _
    omega
  have mod : (96 + i) % 8 = i % 8 := by omega
  rw [bit, bit, unified, Vector.toList_append, div, mod, List.getElem?_append_right (Nat.le_add_right _ _),
    Nat.add_sub_cancel_left]

-- Whether an address is in a network is lost just where the network is of IPv6 and the address of IPv4.
theorem contains_iff {c : Cidr} {ip : IpAddr} :
    c.contains ip = true ↔ c.Covers ip ∧ ¬((∃ n, c.net = .v6 n) ∧ ∃ a, canonical ip = .v4 a) := by
  obtain ⟨net, length, le⟩ := c
  simp only [Cidr.Covers, Cidr.bits, ← unified_canonical ip]
  cases net <;> cases h : canonical ip
  case v4.v4 n a =>
    have families : ¬((∃ n', IpAddr.v4 n = .v6 n') ∧ ∃ a', IpAddr.v4 a = .v4 a') := nofun
    have octets : prefixEq n a length le = true ↔ _ := prefixEq_iff (n := 4) le
    simp only [Cidr.contains, h, and_iff_left families, octets]
    constructor
    · intro eq i lt
      by_cases low : i < 96
      · rw [bit_mapped low, bit_mapped low]
      · obtain ⟨j, rfl⟩ := Nat.exists_eq_add_of_le (Nat.not_lt.mp low)
        rw [bit_v4, bit_v4]
        exact eq j (by change _ < 96 + length at lt; omega)
    · intro eq i lt
      have := eq (96 + i) (by change _ < 96 + length; omega)
      rwa [bit_v4, bit_v4] at this
  case v4.v6 n a =>
    have apart : ¬∀ i < 128 - (IpAddr.v4 n).width + length, bit (unified (.v4 n)) i = bit a i := by
      intro eq
      have heads : a.toList.take 12 = (unified (.v4 n)).toList.take 12 := by
        refine (take_eq_iff (by decide)).mpr fun i lt => (eq i ?_).symm
        change i < 96 + length
        omega
      have := canonical_eq_v6 h
      rw [toIpv4Mapped, if_pos ?_] at this
      · cases this
      · rw [heads]
        exact (congrArg (List.take 12) Vector.toList_append).trans (List.take_left' rfl)
    simp only [Cidr.contains, h, Bool.false_eq_true, false_iff]
    exact fun ⟨eq, _⟩ => apart eq
  case v6.v4 n a => simp [Cidr.contains, h]
  case v6.v6 n a =>
    have families : ¬((∃ n', IpAddr.v6 n = .v6 n') ∧ ∃ a', IpAddr.v6 a = .v4 a') := nofun
    have octets : prefixEq n a length le = true ↔ _ := prefixEq_iff (n := 16) le
    have bits : 128 - (IpAddr.v6 n).width + length = length := by
      change 0 + length = length
      omega
    simp only [Cidr.contains, h, and_iff_left families, octets, bits, unified]

end Kaluta.RateLimit
