import Mathlib

/-! # Address classes and per-subnet address sets (`p2p/netutil/net.go`)

An address is the byte slice of a `net.IP`: four bytes, or sixteen, of which an IPv4-mapped one
stands for its last four (`to4`, as `IP.To4`). `isLAN` is `IsLAN` over the loopback address and
the private networks of `lan4` and `lan6`. A `DistinctNetSet` counts the addresses it holds by
the key of their subnet; a key missing from the Go map counts zero here, and `Remove` deletes a
key whose count reaches zero, so the two agree.
-/

namespace Srcd.P2p
set_option autoImplicit false

abbrev IP := List UInt8

/-- `IP.To4`. -/
def to4 (ip : IP) : Option IP :=
  if ip.length = 4 then some ip
  else if ip.length = 16 ∧ ip.take 10 = List.replicate 10 0 ∧ ip[10]? = some 0xff ∧
      ip[11]? = some 0xff then some (ip.drop 12)
  else none

/-- `net.IPv6loopback`, `::1`. -/
def ipv6loopback : IP := List.replicate 15 0 ++ [1]

/-- `IP.IsLoopback`. -/
def isLoopback (ip : IP) : Bool :=
  match to4 ip with
  | some ip4 => ip4.head? == some 127
  | none => ip == ipv6loopback

/-- The mask byte `j` of a network of `bits` prefix bits. -/
def prefixMask (bits j : ℕ) : UInt8 :=
  if 8 * (j + 1) ≤ bits then 0xFF
  else if 8 * j < bits then (0xFF : UInt8) <<< (8 - (bits - 8 * j)).toUInt8
  else 0

/-- `IPNet.Contains` for the network `net/bits`, an address of its length. -/
def inNet (net : IP) (bits : ℕ) (ip : IP) : Bool :=
  let ip := (to4 ip).getD ip
  ip.length == net.length &&
    (List.range ip.length).all fun j =>
      (ip.getD j 0 &&& prefixMask bits j) == (net.getD j 0 &&& prefixMask bits j)

/-- `Netlist.Contains`. -/
def netlistContains (l : List (IP × ℕ)) (ip : IP) : Bool :=
  l.any fun net => inNet net.1 net.2 ip

def lan4 : List (IP × ℕ) :=
  [([0, 0, 0, 0], 8), ([10, 0, 0, 0], 8), ([172, 16, 0, 0], 12), ([192, 168, 0, 0], 16)]

def lan6 : List (IP × ℕ) :=
  [([0xfe, 0x80] ++ List.replicate 14 0, 10), ([0xfc, 0] ++ List.replicate 14 0, 7)]

/-- `IsLAN`. -/
def isLAN (ip : IP) : Bool :=
  if isLoopback ip then true
  else
    match to4 ip with
    | some v4 => netlistContains lan4 v4
    | none => netlistContains lan6 ip

structure DistinctNetSet where
  /-- `Subnet`: the number of common prefix bits -/
  subnet : ℕ
  /-- `Limit`: the most addresses of one subnet -/
  limit : ℕ
  members : List UInt8 → ℕ

namespace DistinctNetSet

/-- An empty set. -/
def empty (subnet limit : ℕ) : DistinctNetSet := ⟨subnet, limit, fun _ => 0⟩

/-- `key`: the type byte `'4'` or `'6'`, then the prefix of `subnet` bits. -/
def key (s : DistinctNetSet) (ip : IP) : List UInt8 :=
  let (typ, ip) : UInt8 × IP := match to4 ip with
    | some ip4 => (0x34, ip4)
    | none => (0x36, ip)
  let bits := min s.subnet (ip.length * 8)
  let nb := bits / 8
  let mask : UInt8 := ~~~((0xFF : UInt8) >>> (bits % 8).toUInt8)
  let buf := typ :: ip.take nb
  if nb < ip.length ∧ mask ≠ 0 then buf ++ [ip.getD nb 0 &&& mask] else buf

/-- `Add`: counts the address unless its subnet is at the limit. -/
def add (s : DistinctNetSet) (ip : IP) : DistinctNetSet × Bool :=
  let k := s.key ip
  let n := s.members k
  if n < s.limit then ({ s with members := Function.update s.members k (n + 1) }, true)
  else (s, false)

/-- `Remove`: uncounts one address of the subnet, if the subnet has any. -/
def remove (s : DistinctNetSet) (ip : IP) : DistinctNetSet :=
  let k := s.key ip
  let n := s.members k
  if n = 0 then s else { s with members := Function.update s.members k (n - 1) }

/-! What `Add` and `Remove` leave, in the two branches of each. -/

end DistinctNetSet

end Srcd.P2p
