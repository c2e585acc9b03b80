import Mathlib.Data.Vector.Basic
/-!
# Internet addresses and their text form

IP and socket addresses with the text their standard `Display` implementations
produce: dotted decimal for IPv4, and for IPv6 lower-case groups with the longest
run of zero groups, if there is one of at least two, written as `::`.
-/

namespace SfRs.Lib

structure Ipv4Addr where
  octets : Vector UInt8 4
  deriving DecidableEq

structure Ipv6Addr where
  segments : Vector UInt16 8
  deriving DecidableEq

inductive IpAddr where
  | v4 (ip : Ipv4Addr)
  | v6 (ip : Ipv6Addr)
  deriving DecidableEq

structure SocketAddr where
  ip : IpAddr
  port : UInt16
  deriving DecidableEq

def Ipv4Addr.display (ip : Ipv4Addr) : String :=
  ".".intercalate (ip.octets.toList.map fun o => toString o.toNat)

/-- The IPv4 address of `::ffff:a.b.c.d`. -/
def Ipv6Addr.toIpv4Mapped (ip : Ipv6Addr) : Option Ipv4Addr :=
  match ip.segments.toList with
  | [0, 0, 0, 0, 0, 0xffff, ab, cd] =>
      some ⟨#v[(ab >>> 8).toUInt8, ab.toUInt8, (cd >>> 8).toUInt8, cd.toUInt8]⟩
  | _ => none

/-- A run of zero groups. -/
structure Span where
  start : Nat
  len : Nat

/-- The longest run of zero groups, the first one when several are longest: `i` is the
index of the next group, `current` the run it may continue. -/
def longestZeros : Nat → List UInt16 → Span → Span → Span
  | _, [], _, longest => longest
  | i, segment :: rest, current, longest =>
      if segment = 0 then
        let current' : Span :=
          { start := if current.len = 0 then i else current.start, len := current.len + 1 }
        longestZeros (i + 1) rest current'
          (if longest.len < current'.len then current' else longest)
      else
        longestZeros (i + 1) rest ⟨0, 0⟩ longest

/-- Groups in lower-case hexadecimal, separated by colons. -/
def displayGroups (segments : List UInt16) : String :=
  ":".intercalate (segments.map fun s => String.ofList (Nat.toDigits 16 s.toNat))

def Ipv6Addr.display (ip : Ipv6Addr) : String :=
  match ip.toIpv4Mapped with
  | some ipv4 => "::ffff:" ++ ipv4.display
  | none =>
      let segments := ip.segments.toList
      let zeroes := longestZeros 0 segments ⟨0, 0⟩ ⟨0, 0⟩
      if 1 < zeroes.len then
        displayGroups (segments.take zeroes.start) ++ "::" ++
          displayGroups (segments.drop (zeroes.start + zeroes.len))
      else displayGroups segments

def IpAddr.display : IpAddr → String
  | .v4 ip => ip.display
  | .v6 ip => ip.display

example : (Ipv6Addr.mk #v[0x2001, 0xdb8, 0, 0, 1, 0, 0, 0]).display = "2001:db8:0:0:1::" := by
  decide +kernel

end SfRs.Lib
