/-
  IP addresses: octets and segments, the classes of addresses that Rust's
  `std::net` knows, and blocks of addresses with a common prefix.
-/
import Mathlib

namespace Lib

structure Ipv4Addr where
  a : UInt8
  b : UInt8
  c : UInt8
  d : UInt8
  deriving DecidableEq, Repr

/-- The eight segments of an address. -/
structure Ipv6Addr where
  s0 : UInt16
  s1 : UInt16
  s2 : UInt16
  s3 : UInt16
  s4 : UInt16
  s5 : UInt16
  s6 : UInt16
  s7 : UInt16
  deriving DecidableEq, Repr

inductive IpAddr
  | v4 (addr : Ipv4Addr)
  | v6 (addr : Ipv6Addr)
  deriving DecidableEq, Repr

/-! ## The classes of `std::net` -/

namespace Ipv4Addr

def isLoopback (v4 : Ipv4Addr) : Bool := v4.a == 127

def isPrivate (v4 : Ipv4Addr) : Bool :=
  v4.a == 10 || (v4.a == 172 && decide (16 ≤ v4.b) && decide (v4.b ≤ 31)) || (v4.a == 192 && v4.b == 168)

def isLinkLocal (v4 : Ipv4Addr) : Bool := v4.a == 169 && v4.b == 254

def isUnspecified (v4 : Ipv4Addr) : Bool := v4 == ⟨0, 0, 0, 0⟩

def isBroadcast (v4 : Ipv4Addr) : Bool := v4 == ⟨255, 255, 255, 255⟩

def isDocumentation (v4 : Ipv4Addr) : Bool :=
  (v4.a == 192 && v4.b == 0 && v4.c == 2) || (v4.a == 198 && v4.b == 51 && v4.c == 100)
    || (v4.a == 203 && v4.b == 0 && v4.c == 113)

def isMulticast (v4 : Ipv4Addr) : Bool := decide (224 ≤ v4.a) && decide (v4.a ≤ 239)

def octets (v4 : Ipv4Addr) : List Nat := [v4.a.toNat, v4.b.toNat, v4.c.toNat, v4.d.toNat]

end Ipv4Addr

namespace Ipv6Addr

def isLoopback (v6 : Ipv6Addr) : Bool := v6 == ⟨0, 0, 0, 0, 0, 0, 0, 1⟩

def isUnspecified (v6 : Ipv6Addr) : Bool := v6 == ⟨0, 0, 0, 0, 0, 0, 0, 0⟩

def isMulticast (v6 : Ipv6Addr) : Bool := v6.s0 &&& 0xff00 == 0xff00

/-- The IPv4 address that two segments hold. -/
def embedded (hi lo : UInt16) : Ipv4Addr :=
  ⟨(hi >>> 8).toUInt8, hi.toUInt8, (lo >>> 8).toUInt8, lo.toUInt8⟩

/-- `to_ipv4_mapped`: the address in `::ffff:0:0/96`. -/
def toIpv4Mapped (v6 : Ipv6Addr) : Option Ipv4Addr :=
  if v6.s0 = 0 ∧ v6.s1 = 0 ∧ v6.s2 = 0 ∧ v6.s3 = 0 ∧ v6.s4 = 0 ∧ v6.s5 = 0xffff then
    some (embedded v6.s6 v6.s7)
  else none

def segments (v6 : Ipv6Addr) : List Nat :=
  [v6.s0.toNat, v6.s1.toNat, v6.s2.toNat, v6.s3.toNat, v6.s4.toNat, v6.s5.toNat, v6.s6.toNat,
    v6.s7.toNat]

end Ipv6Addr

/-! ## As text -/

def Ipv4Addr.display (v4 : Ipv4Addr) : String :=
  String.intercalate "." (v4.octets.map toString)

/-- The longest run of zeros, the first of several: its start and its length. -/
def longestZeros (segments : List Nat) : Nat × Nat :=
  let step := fun (acc : Nat × (Nat × Nat) × (Nat × Nat)) (segment : Nat) =>
    let (i, current, longest) := acc
    if segment = 0 then
      let current := (if current.2 = 0 then i else current.1, current.2 + 1)
      (i + 1, current, if longest.2 < current.2 then current else longest)
    else (i + 1, (0, 0), longest)
  (segments.foldl step (0, (0, 0), (0, 0))).2.2

def hexSegments (segments : List Nat) : String :=
  String.intercalate ":" (segments.map fun s => String.ofList (Nat.toDigits 16 s))

def Ipv6Addr.display (v6 : Ipv6Addr) : String :=
  match v6.toIpv4Mapped with
  | some v4 => "::ffff:" ++ v4.display
  | none =>
    let (start, len) := longestZeros v6.segments
    if 1 < len then
      hexSegments (v6.segments.take start) ++ "::" ++ hexSegments (v6.segments.drop (start + len))
    else hexSegments v6.segments

def IpAddr.display : IpAddr → String
  | .v4 addr => addr.display
  | .v6 addr => addr.display

example : (Ipv6Addr.mk 0x2001 0xdb8 0 0 0 0 0 1).display = "2001:db8::1" := by decide

/-! ## Blocks of addresses -/

/-- Two numbers, as digits of `w` bits each, agree in their first `n` bits. -/
def agree (w : Nat) : Nat → List Nat → List Nat → Bool
  | 0, _, _ => true
  | n + 1, x :: xs, y :: ys =>
    x / 2 ^ (w - (n + 1)) == y / 2 ^ (w - (n + 1)) && agree w (n + 1 - w) xs ys
  | _, _, _ => true

/-- The addresses that agree with `network` in their first `length` bits. -/
structure Block (Addr : Type) where
  network : Addr
  length : Nat

def Block.contains4 (block : Block Ipv4Addr) (v4 : Ipv4Addr) : Bool :=
  agree 8 block.length v4.octets block.network.octets

def Block.contains6 (block : Block Ipv6Addr) (v6 : Ipv6Addr) : Bool :=
  agree 16 block.length v6.segments block.network.segments

/-- The address is in one of the blocks. -/
def in4 (blocks : List (Block Ipv4Addr)) (v4 : Ipv4Addr) : Prop :=
  ∃ block ∈ blocks, block.contains4 v4 = true

def in6 (blocks : List (Block Ipv6Addr)) (v6 : Ipv6Addr) : Prop :=
  ∃ block ∈ blocks, block.contains6 v6 = true

instance (blocks : List (Block Ipv4Addr)) (v4 : Ipv4Addr) : Decidable (in4 blocks v4) :=
  inferInstanceAs (Decidable (∃ _, _))

instance (blocks : List (Block Ipv6Addr)) (v6 : Ipv6Addr) : Decidable (in6 blocks v6) :=
  inferInstanceAs (Decidable (∃ _, _))

variable {v4 : Ipv4Addr} {v6 : Ipv6Addr}

theorem in4_append {l l' : List (Block Ipv4Addr)} : in4 (l ++ l') v4 ↔ in4 l v4 ∨ in4 l' v4 := by
  simp [in4, or_and_right, exists_or]

theorem in6_append {l l' : List (Block Ipv6Addr)} : in6 (l ++ l') v6 ↔ in6 l v6 ∨ in6 l' v6 := by
  simp [in6, or_and_right, exists_or]

/-! ## The classes as blocks -/

def loopback4 : List (Block Ipv4Addr) := [⟨⟨127, 0, 0, 0⟩, 8⟩]
def private4 : List (Block Ipv4Addr) :=
  [⟨⟨10, 0, 0, 0⟩, 8⟩, ⟨⟨172, 16, 0, 0⟩, 12⟩, ⟨⟨192, 168, 0, 0⟩, 16⟩]
def linkLocal4 : List (Block Ipv4Addr) := [⟨⟨169, 254, 0, 0⟩, 16⟩]
def unspecified4 : List (Block Ipv4Addr) := [⟨⟨0, 0, 0, 0⟩, 32⟩]
def broadcast4 : List (Block Ipv4Addr) := [⟨⟨255, 255, 255, 255⟩, 32⟩]
def documentation4 : List (Block Ipv4Addr) :=
  [⟨⟨192, 0, 2, 0⟩, 24⟩, ⟨⟨198, 51, 100, 0⟩, 24⟩, ⟨⟨203, 0, 113, 0⟩, 24⟩]
def multicast4 : List (Block Ipv4Addr) := [⟨⟨224, 0, 0, 0⟩, 4⟩]

theorem isLoopback4_iff : v4.isLoopback = true ↔ in4 loopback4 v4 := by
  simp [Ipv4Addr.isLoopback, in4, loopback4, Block.contains4, agree, Ipv4Addr.octets,
    ← UInt8.toNat_inj]

theorem isPrivate4_iff : v4.isPrivate = true ↔ in4 private4 v4 := by
  have hb : 16 ≤ v4.b.toNat ∧ v4.b.toNat ≤ 31 ↔ v4.b.toNat / 16 = 1 := by omega
  simp [Ipv4Addr.isPrivate, in4, private4, Block.contains4, agree, Ipv4Addr.octets,
    ← UInt8.toNat_inj, UInt8.le_iff_toNat_le, ← hb, and_assoc, or_assoc]

theorem isLinkLocal4_iff : v4.isLinkLocal = true ↔ in4 linkLocal4 v4 := by
  simp [Ipv4Addr.isLinkLocal, in4, linkLocal4, Block.contains4, agree, Ipv4Addr.octets,
    ← UInt8.toNat_inj]

theorem isUnspecified4_iff : v4.isUnspecified = true ↔ in4 unspecified4 v4 := by
  obtain ⟨a, b, c, d⟩ := v4
  simp [Ipv4Addr.isUnspecified, in4, unspecified4, Block.contains4, agree, Ipv4Addr.octets,
    ← UInt8.toNat_inj]

theorem isBroadcast4_iff : v4.isBroadcast = true ↔ in4 broadcast4 v4 := by
  obtain ⟨a, b, c, d⟩ := v4
  simp [Ipv4Addr.isBroadcast, in4, broadcast4, Block.contains4, agree, Ipv4Addr.octets,
    ← UInt8.toNat_inj]

theorem isDocumentation4_iff : v4.isDocumentation = true ↔ in4 documentation4 v4 := by
  simp [Ipv4Addr.isDocumentation, in4, documentation4, Block.contains4, agree, Ipv4Addr.octets,
    ← UInt8.toNat_inj, and_assoc, or_assoc]

theorem isMulticast4_iff : v4.isMulticast = true ↔ in4 multicast4 v4 := by
  have ha : 224 ≤ v4.a.toNat ∧ v4.a.toNat ≤ 239 ↔ v4.a.toNat / 16 = 14 := by omega
  simp [Ipv4Addr.isMulticast, in4, multicast4, Block.contains4, agree, Ipv4Addr.octets,
    UInt8.le_iff_toNat_le, ← ha]

def loopback6 : List (Block Ipv6Addr) := [⟨⟨0, 0, 0, 0, 0, 0, 0, 1⟩, 128⟩]
def unspecified6 : List (Block Ipv6Addr) := [⟨⟨0, 0, 0, 0, 0, 0, 0, 0⟩, 128⟩]
def multicast6 : List (Block Ipv6Addr) := [⟨⟨0xff00, 0, 0, 0, 0, 0, 0, 0⟩, 8⟩]
def mapped6 : List (Block Ipv6Addr) := [⟨⟨0, 0, 0, 0, 0, 0xffff, 0, 0⟩, 96⟩]

theorem isLoopback6_iff : v6.isLoopback = true ↔ in6 loopback6 v6 := by
  obtain ⟨s0, s1, s2, s3, s4, s5, s6, s7⟩ := v6
  simp [Ipv6Addr.isLoopback, in6, loopback6, Block.contains6, agree, Ipv6Addr.segments,
    ← UInt16.toNat_inj]

theorem isUnspecified6_iff : v6.isUnspecified = true ↔ in6 unspecified6 v6 := by
  obtain ⟨s0, s1, s2, s3, s4, s5, s6, s7⟩ := v6
  simp [Ipv6Addr.isUnspecified, in6, unspecified6, Block.contains6, agree, Ipv6Addr.segments,
    ← UInt16.toNat_inj]

theorem toIpv4Mapped_isSome_iff : v6.toIpv4Mapped.isSome = true ↔ in6 mapped6 v6 := by
  simp [Ipv6Addr.toIpv4Mapped, in6, mapped6, Block.contains6, agree, Ipv6Addr.segments,
    ← UInt16.toNat_inj]

/-- A mask of `n` bits that starts at bit `k`. -/
theorem and_mask (x n k : Nat) : x &&& (2 ^ n - 1) * 2 ^ k = x / 2 ^ k % 2 ^ n * 2 ^ k := by
  apply Nat.eq_of_testBit_eq
  intro i
  simp only [Nat.testBit_and, Nat.testBit_mul_two_pow, Nat.testBit_mod_two_pow,
    Nat.testBit_two_pow_sub_one, Nat.testBit_div_two_pow]
  by_cases hi : k ≤ i
  · simp [hi, Nat.sub_add_cancel hi]
    exact Bool.and_comm ..
  · simp [hi]

/-- A mask on the first `n` bits of a segment. -/
theorem segment_mask (s : UInt16) {mask value : UInt16} {n k : Nat}
    (hmask : mask.toNat = (2 ^ n - 1) * 2 ^ k) (hn : n + k = 16) :
    (s &&& mask == value) = decide (s.toNat / 2 ^ k * 2 ^ k = value.toNat) := by
  have hs := s.toNat_lt
  have hmod : s.toNat / 2 ^ k % 2 ^ n = s.toNat / 2 ^ k := by
    refine Nat.mod_eq_of_lt (Nat.div_lt_of_lt_mul ?_)
    rw [← pow_add, add_comm k n, hn]
    exact hs
  rw [Bool.eq_iff_iff, beq_iff_eq, decide_eq_true_eq, ← UInt16.toNat_inj, UInt16.toNat_and, hmask,
    and_mask, hmod]

theorem isMulticast6_iff : v6.isMulticast = true ↔ in6 multicast6 v6 := by
  rw [Ipv6Addr.isMulticast, segment_mask v6.s0 (n := 8) (k := 8) (by decide) (by decide)]
  have hs : v6.s0.toNat / 256 * 256 = 65280 ↔ v6.s0.toNat / 256 = 255 := by omega
  simp [in6, multicast6, Block.contains6, agree, Ipv6Addr.segments, hs]

end Lib
