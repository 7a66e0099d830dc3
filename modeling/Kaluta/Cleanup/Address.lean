import Mathlib.Data.List.Basic

-- IP addresses, and which of them a one-click unsubscribe may connect to.
namespace Kaluta.Cleanup

structure Ipv4Addr where
  a : UInt8
  b : UInt8
  c : UInt8
  d : UInt8
  deriving DecidableEq

structure Ipv6Addr where
  s0 : UInt16
  s1 : UInt16
  s2 : UInt16
  s3 : UInt16
  s4 : UInt16
  s5 : UInt16
  s6 : UInt16
  s7 : UInt16
  deriving DecidableEq

inductive IpAddr
  | v4 (ip : Ipv4Addr)
  | v6 (ip : Ipv6Addr)
  deriving DecidableEq

-- The IPv4 address in two segments.
def Ipv4Addr.of (hi lo : UInt16) : Ipv4Addr :=
  ⟨(hi >>> 8).toUInt8, hi.toUInt8, (lo >>> 8).toUInt8, lo.toUInt8⟩

namespace Ipv4Addr

variable (ip : Ipv4Addr)

def isLoopback    : Bool := ip.a = 127
def isUnspecified : Bool := ip = ⟨0, 0, 0, 0⟩
def isPrivate     : Bool :=
  ip.a = 10 ∨ (ip.a = 172 ∧ 16 ≤ ip.b ∧ ip.b ≤ 31) ∨ (ip.a = 192 ∧ ip.b = 168)
def isLinkLocal     : Bool := ip.a = 169 ∧ ip.b = 254
def isMulticast     : Bool := 224 ≤ ip.a ∧ ip.a ≤ 239
def isBroadcast     : Bool := ip = ⟨255, 255, 255, 255⟩
def isDocumentation : Bool :=
  (ip.a = 192 ∧ ip.b = 0 ∧ ip.c = 2) ∨ (ip.a = 198 ∧ ip.b = 51 ∧ ip.c = 100) ∨ (ip.a = 203 ∧ ip.b = 0 ∧ ip.c = 113)

end Ipv4Addr

namespace Ipv6Addr

variable (ip : Ipv6Addr)

def isLoopback    : Bool := ip = ⟨0, 0, 0, 0, 0, 0, 0, 1⟩
def isUnspecified : Bool := ip = ⟨0, 0, 0, 0, 0, 0, 0, 0⟩
def isMulticast   : Bool := ip.s0 &&& 0xff00 = 0xff00

def toIpv4Mapped : Option Ipv4Addr :=
  if ip.s0 = 0 ∧ ip.s1 = 0 ∧ ip.s2 = 0 ∧ ip.s3 = 0 ∧ ip.s4 = 0 ∧ ip.s5 = 0xffff then some (.of ip.s6 ip.s7) else none

end Ipv6Addr

-- The IPv4 part of `public_address`.
def publicV4 (ip : Ipv4Addr) : Bool :=
  !(ip.isLoopback || ip.isUnspecified || ip.isPrivate || ip.isLinkLocal || ip.isMulticast || ip.isBroadcast ||
    ip.isDocumentation || ip.a = 0 || (ip.a = 100 ∧ 64 ≤ ip.b ∧ ip.b < 128) || (ip.a = 192 ∧ ip.b = 0 ∧ ip.c = 0) ||
    (ip.a = 198 ∧ 18 ≤ ip.b ∧ ip.b < 20) || 240 ≤ ip.a)

-- A public unicast address, as far as the one-click POST is concerned.
def publicAddress : IpAddr → Bool
  | .v4 ip => publicV4 ip
  | .v6 ip =>
    match ip.toIpv4Mapped with
    | some mapped => publicV4 mapped
    | none        =>
      if ip.s0 = 0x64 ∧ ip.s1 = 0xff9b ∧ ip.s2 = 0 ∧ ip.s3 = 0 ∧ ip.s4 = 0 ∧ ip.s5 = 0 then publicV4 (.of ip.s6 ip.s7)
      else
        !(ip.isLoopback || ip.isUnspecified || ip.isMulticast || ip.s0 &&& 0xfe00 = 0xfc00 ||
          ip.s0 &&& 0xffc0 = 0xfe80 || ip.s0 &&& 0xffc0 = 0xfec0 ||
          (ip.s0 = 0 ∧ ip.s1 = 0 ∧ ip.s2 = 0 ∧ ip.s3 = 0 ∧ ip.s4 = 0 ∧ ip.s5 = 0) ||
          (ip.s0 = 0x2001 ∧ ip.s1 = 0xdb8))

section Parsing

def isAsciiDigit (c : Char) : Bool :=
  '0' ≤ c ∧ c ≤ '9'

def isAsciiHexDigit (c : Char) : Bool :=
  isAsciiDigit c || ('a' ≤ c ∧ c ≤ 'f') || ('A' ≤ c ∧ c ≤ 'F')

-- A number of an IPv4 address: no leading zero.
def isOctet (cs : List Char) : Bool :=
  cs.all isAsciiDigit && cs ≠ [] && cs.length ≤ 3 && (cs = ['0'] || cs.head? ≠ some '0') &&
    cs.foldl (fun n c => 10 * n + (c.toNat - 48)) 0 ≤ 255

def isIpv4 (cs : List Char) : Bool :=
  (cs.splitOn '.').length = 4 && (cs.splitOn '.').all isOctet

def isGroup (cs : List Char) : Bool :=
  cs.all isAsciiHexDigit && cs ≠ [] && cs.length ≤ 4

-- How many segments the groups make, where the last one may be an IPv4 address.
def segments (ipv4 : Bool) : List (List Char) → Option Nat
  | []      => some 0
  | [g]     => if isGroup g then some 1 else if ipv4 && isIpv4 g then some 2 else none
  | g :: gs => if isGroup g then (segments ipv4 gs).map (· + 1) else none

-- What stands before and after the first `::`.
def splitEllipsis : List Char → Option (List Char × List Char)
  | ':' :: ':' :: cs => some ([], cs)
  | c :: cs          => (splitEllipsis cs).map fun (head, tail) => (c :: head, tail)
  | []               => none

def groups (cs : List Char) : List (List Char) :=
  if cs = [] then [] else cs.splitOn ':'

def isIpv6 (cs : List Char) : Bool :=
  match splitEllipsis cs with
  | none              => segments true (groups cs) = some 8
  | some (head, tail) =>
    match segments false (groups head), segments true (groups tail) with
    | some n, some m => n + m ≤ 7
    | _     , _      => false

-- Whether a text parses as an IP address.
def isIpAddr (s : String) : Bool :=
  isIpv4 s.toList || isIpv6 s.toList

example : isIpAddr "::ffff:127.0.0.1" = true ∧ isIpAddr "127.1" = false ∧ isIpAddr "1::2::3" = false := by decide

end Parsing

end Kaluta.Cleanup
