/-
  The addresses that are blocked against those that are not globally routable.

  The classification misses the blocks `missed4` and `missed6`, and the IPv6
  addresses other than mapped ones that embed a blocked IPv4 address.
-/
import OpenAgentGraph.Crawler.Ssrf

namespace OpenAgentGraph

open Lib

variable {v4 : Ipv4Addr} {v6 : Ipv6Addr}

/-! ## Blocks that are not globally routable -/

def shared4 : List (Block Ipv4Addr) := [⟨⟨100, 64, 0, 0⟩, 10⟩]
def benchmarking4 : List (Block Ipv4Addr) := [⟨⟨198, 18, 0, 0⟩, 15⟩]
def reserved4 : List (Block Ipv4Addr) := [⟨⟨240, 0, 0, 0⟩, 4⟩]

/-- The special-purpose blocks of IPv4 addresses. -/
def special4 : List (Block Ipv4Addr) :=
  loopback4 ++ private4 ++ shared4 ++ linkLocal4 ++ documentation4 ++ benchmarking4 ++ multicast4
    ++ reserved4 ++ unspecified4

def linkLocal6 : List (Block Ipv6Addr) := [⟨⟨0xfe80, 0, 0, 0, 0, 0, 0, 0⟩, 10⟩]
def uniqueLocal6 : List (Block Ipv6Addr) := [⟨⟨0xfc00, 0, 0, 0, 0, 0, 0, 0⟩, 7⟩]
def documentation6 : List (Block Ipv6Addr) :=
  [⟨⟨0x2001, 0xdb8, 0, 0, 0, 0, 0, 0⟩, 32⟩, ⟨⟨0x3fff, 0, 0, 0, 0, 0, 0, 0⟩, 20⟩]
def benchmarking6 : List (Block Ipv6Addr) := [⟨⟨0x2001, 2, 0, 0, 0, 0, 0, 0⟩, 48⟩]

/-- The special-purpose blocks of IPv6 addresses. -/
def special6 : List (Block Ipv6Addr) :=
  loopback6 ++ linkLocal6 ++ documentation6 ++ benchmarking6 ++ multicast6 ++ unspecified6
    ++ uniqueLocal6

def compatible6 : List (Block Ipv6Addr) := [⟨⟨0, 0, 0, 0, 0, 0, 0, 0⟩, 96⟩]
def nat64 : List (Block Ipv6Addr) := [⟨⟨0x64, 0xff9b, 0, 0, 0, 0, 0, 0⟩, 96⟩]
def sixToFour : List (Block Ipv6Addr) := [⟨⟨0x2002, 0, 0, 0, 0, 0, 0, 0⟩, 16⟩]

/-- The IPv4 address in an IPv6 address of a form that embeds one. -/
def embeddedIpv4 (v6 : Ipv6Addr) : Option Ipv4Addr :=
  if in6 (mapped6 ++ compatible6 ++ nat64) v6 then some (Ipv6Addr.embedded v6.s6 v6.s7)
  else if in6 sixToFour v6 then some (Ipv6Addr.embedded v6.s1 v6.s2)
  else none

/-- The addresses that are not globally routable, and those that embed a
    blocked address. -/
def MustBlock : IpAddr → Prop
  | .v4 v4 => in4 special4 v4
  | .v6 v6 => in6 special6 v6 ∨ ∃ v4, embeddedIpv4 v6 = some v4 ∧ isBlockedIp (.v4 v4) = true

/-! ## What the code blocks -/

def thisNetwork4 : List (Block Ipv4Addr) := [⟨⟨0, 0, 0, 0⟩, 8⟩]

def blocked4 : List (Block Ipv4Addr) :=
  loopback4 ++ private4 ++ linkLocal4 ++ unspecified4 ++ broadcast4 ++ documentation4 ++ multicast4
    ++ thisNetwork4

def blocked6 : List (Block Ipv6Addr) :=
  loopback6 ++ unspecified6 ++ multicast6 ++ uniqueLocal6 ++ linkLocal6

theorem isBlockedV4_iff (v4 : Ipv4Addr) : isBlockedV4 v4 = true ↔ in4 blocked4 v4 := by
  have hthis : v4.a = 0 ↔ in4 thisNetwork4 v4 := by
    simp [in4, thisNetwork4, Block.contains4, agree, Ipv4Addr.octets, ← UInt8.toNat_inj]
  simp only [isBlockedV4, Bool.or_eq_true, beq_iff_eq, isLoopback4_iff, isPrivate4_iff,
    isLinkLocal4_iff, isUnspecified4_iff, isBroadcast4_iff, isDocumentation4_iff, isMulticast4_iff,
    hthis, blocked4, in4_append]

theorem isUniqueLocalV6_iff (v6 : Ipv6Addr) : isUniqueLocalV6 v6 = true ↔ in6 uniqueLocal6 v6 := by
  rw [isUniqueLocalV6, segment_mask v6.s0 (n := 7) (k := 9) (by decide) (by decide)]
  have hs : v6.s0.toNat / 512 * 512 = 64512 ↔ v6.s0.toNat / 512 = 126 := by omega
  simp [in6, uniqueLocal6, Block.contains6, agree, Ipv6Addr.segments, hs]

theorem isUnicastLinkLocalV6_iff (v6 : Ipv6Addr) :
    isUnicastLinkLocalV6 v6 = true ↔ in6 linkLocal6 v6 := by
  rw [isUnicastLinkLocalV6, segment_mask v6.s0 (n := 10) (k := 6) (by decide) (by decide)]
  have hs : v6.s0.toNat / 64 * 64 = 65152 ↔ v6.s0.toNat / 64 = 1018 := by omega
  simp [in6, linkLocal6, Block.contains6, agree, Ipv6Addr.segments, hs]

theorem isBlockedV6_mapped (h : in6 mapped6 v6) :
    isBlockedV6 v6 = isBlockedV4 (Ipv6Addr.embedded v6.s6 v6.s7) := by
  obtain ⟨v4, hv4⟩ := Option.isSome_iff_exists.1 (toIpv4Mapped_isSome_iff.2 h)
  unfold isBlockedV6
  rw [hv4]
  unfold Ipv6Addr.toIpv4Mapped at hv4
  split at hv4
  · cases hv4
    rfl
  · cases hv4

theorem isBlockedV6_iff (h : ¬ in6 mapped6 v6) : isBlockedV6 v6 = true ↔ in6 blocked6 v6 := by
  have hnone : v6.toIpv4Mapped = none := by
    rw [← Option.not_isSome_iff_eq_none, toIpv4Mapped_isSome_iff]
    exact h
  simp only [isBlockedV6, hnone, Bool.or_eq_true, isLoopback6_iff, isUnspecified6_iff,
    isMulticast6_iff, isUniqueLocalV6_iff, isUnicastLinkLocalV6_iff, blocked6, in6_append]

/-! ## What it misses -/

def missed4 : List (Block Ipv4Addr) := shared4 ++ benchmarking4 ++ reserved4
def missed6 : List (Block Ipv6Addr) := documentation6 ++ benchmarking6

/-- The addresses that should be blocked and are not. -/
def Missed : IpAddr → Prop
  | .v4 v4 => in4 missed4 v4 ∧ ¬ in4 broadcast4 v4
  | .v6 v6 => in6 missed6 v6 ∨
    (¬ in6 (mapped6 ++ loopback6 ++ unspecified6) v6 ∧
      ∃ v4, embeddedIpv4 v6 = some v4 ∧ in4 blocked4 v4)

theorem missed4_disjoint (h : in4 missed4 v4) (hb : in4 blocked4 v4) : in4 broadcast4 v4 := by
  simp only [missed4, shared4, benchmarking4, reserved4, blocked4, loopback4, private4, linkLocal4,
    unspecified4, broadcast4, documentation4, multicast4, thisNetwork4, in4, List.cons_append,
    List.nil_append, List.mem_cons, List.not_mem_nil, or_false, exists_eq_or_imp, exists_eq_left,
    Block.contains4, agree, Ipv4Addr.octets, Bool.and_eq_true, beq_iff_eq, UInt8.reduceToNat,
    Nat.reduceSub, Nat.reducePow, Nat.reduceAdd, Nat.reduceDiv, Nat.div_one, and_true] at h hb ⊢
  rcases hb with hb | hb | hb | hb | hb | hb | hb | hb | hb | hb | hb | hb <;> omega

theorem missed6_disjoint (h : in6 missed6 v6) : ¬ in6 mapped6 v6 ∧ ¬ in6 blocked6 v6 := by
  simp only [missed6, documentation6, benchmarking6, mapped6, blocked6, loopback6, unspecified6,
    multicast6, uniqueLocal6, linkLocal6, in6, List.cons_append, List.nil_append, List.mem_cons,
    List.not_mem_nil, or_false, exists_eq_or_imp, exists_eq_left, Block.contains6, agree,
    Ipv6Addr.segments, Bool.and_eq_true, beq_iff_eq, UInt16.reduceToNat, Nat.reduceSub,
    Nat.reducePow, Nat.reduceAdd, Nat.reduceDiv, Nat.div_one, and_true] at h ⊢
  constructor
  · rintro hm
    omega
  · rintro (hb | hb | hb | hb | hb) <;> omega

/-- The forms that embed an IPv4 address have other first segments than the
    blocks. -/
theorem embedded_disjoint {v : Ipv4Addr} (h : embeddedIpv4 v6 = some v)
    (hno : ¬ in6 (mapped6 ++ loopback6 ++ unspecified6) v6) : ¬ in6 blocked6 v6 := by
  have hform : v6.s0.toNat = 0 ∨ v6.s0.toNat = 100 ∨ v6.s0.toNat = 8194 := by
    unfold embeddedIpv4 at h
    split at h
    · rename_i hin
      simp [mapped6, compatible6, nat64, in6, Block.contains6, agree, Ipv6Addr.segments] at hin
      omega
    · split at h
      · rename_i hin
        simp [sixToFour, in6, Block.contains6, agree, Ipv6Addr.segments] at hin
        omega
      · cases h
  simp only [blocked6, in6_append] at hno ⊢
  rintro ((((hb | hb) | hb) | hb) | hb)
  · exact hno (Or.inl (Or.inr hb))
  · exact hno (Or.inr hb)
  · simp [multicast6, in6, Block.contains6, agree, Ipv6Addr.segments] at hb
    omega
  · simp [uniqueLocal6, in6, Block.contains6, agree, Ipv6Addr.segments] at hb
    omega
  · simp [linkLocal6, in6, Block.contains6, agree, Ipv6Addr.segments] at hb
    omega

theorem special4_cases (h : in4 special4 v4) : in4 blocked4 v4 ∨ in4 missed4 v4 := by
  simp only [special4, blocked4, missed4, in4_append] at h ⊢
  tauto

theorem special6_cases (h : in6 special6 v6) : in6 blocked6 v6 ∨ in6 missed6 v6 := by
  simp only [special6, blocked6, missed6, in6_append] at h ⊢
  tauto

theorem special4_of_missed (h : in4 missed4 v4) : in4 special4 v4 := by
  simp only [special4, missed4, in4_append] at h ⊢
  tauto

theorem special6_of_missed (h : in6 missed6 v6) : in6 special6 v6 := by
  simp only [special6, missed6, in6_append] at h ⊢
  tauto

theorem in4_blocked_of_broadcast (h : in4 broadcast4 v4) : in4 blocked4 v4 := by
  simp only [blocked4, in4_append]
  tauto

theorem complete4_iff (v4 : Ipv4Addr) :
    (MustBlock (.v4 v4) → isBlockedIp (.v4 v4) = true) ↔ ¬ Missed (.v4 v4) := by
  simp only [MustBlock, isBlockedIp, Missed, isBlockedV4_iff]
  constructor
  · rintro h ⟨hm, hno⟩
    exact hno (missed4_disjoint hm (h (special4_of_missed hm)))
  · intro h hs
    rcases special4_cases hs with hb | hm
    · exact hb
    · exact in4_blocked_of_broadcast (by_contra fun hno => h ⟨hm, hno⟩)

theorem special6_not_mapped (h : in6 special6 v6) : ¬ in6 mapped6 v6 := by
  intro hm
  simp [mapped6, in6, Block.contains6, agree, Ipv6Addr.segments] at hm
  simp [special6, loopback6, linkLocal6, documentation6, benchmarking6, multicast6, unspecified6,
    uniqueLocal6, in6, Block.contains6, agree, Ipv6Addr.segments] at h
  omega

/-- A mapped address is classified as the address that it maps. -/
theorem complete6_mapped (hmap : in6 mapped6 v6) :
    (MustBlock (.v6 v6) → isBlockedIp (.v6 v6) = true) ∧ ¬ Missed (.v6 v6) := by
  have hemb : embeddedIpv4 v6 = some (Ipv6Addr.embedded v6.s6 v6.s7) := by
    unfold embeddedIpv4
    rw [if_pos (in6_append.2 (Or.inl (in6_append.2 (Or.inl hmap))))]
  refine ⟨?_, ?_⟩
  · simp only [MustBlock, isBlockedIp, isBlockedV6_mapped hmap]
    rintro (hs | ⟨v4, hv4, hb⟩)
    · exact absurd hmap (special6_not_mapped hs)
    · rw [hemb] at hv4
      cases hv4
      exact hb
  · rintro (hm | ⟨hno, -⟩)
    · exact (missed6_disjoint hm).1 hmap
    · exact hno (in6_append.2 (Or.inl (in6_append.2 (Or.inl hmap))))

theorem complete6_iff (hmap : ¬ in6 mapped6 v6) :
    (MustBlock (.v6 v6) → isBlockedIp (.v6 v6) = true) ↔ ¬ Missed (.v6 v6) := by
  simp only [MustBlock, isBlockedIp, Missed, isBlockedV6_iff hmap, isBlockedV4_iff]
  constructor
  · rintro h (hm | ⟨hno, hemb⟩)
    · exact (missed6_disjoint hm).2 (h (Or.inl (special6_of_missed hm)))
    · obtain ⟨v4, hv4, -⟩ := id hemb
      exact embedded_disjoint hv4 hno (h (Or.inr hemb))
  · rintro h (hs | hemb)
    · rcases special6_cases hs with hb | hm
      · exact hb
      · exact absurd (Or.inl hm) h
    · by_contra hb
      refine h (Or.inr ⟨?_, hemb⟩)
      simp only [blocked6, in6_append] at hb ⊢
      tauto

/-- **Which addresses are missed**: an address is blocked if it has to be,
    exactly if it is none of the missed ones. -/
theorem isBlockedIp_complete_iff (ip : IpAddr) :
    (MustBlock ip → isBlockedIp ip = true) ↔ ¬ Missed ip := by
  cases ip with
  | v4 v4 => exact complete4_iff v4
  | v6 v6 =>
    by_cases hmap : in6 mapped6 v6
    · obtain ⟨h, hno⟩ := complete6_mapped hmap
      exact ⟨fun _ => hno, fun _ => h⟩
    · exact complete6_iff hmap

/-- `2001:db8::1` is for documentation, `100.64.0.1` is shared address space and
    `64:ff9b::7f00:1` embeds `127.0.0.1`; none of them is blocked. -/
theorem documentation_not_blocked :
    (MustBlock (.v6 ⟨0x2001, 0xdb8, 0, 0, 0, 0, 0, 1⟩) ∧
      isBlockedIp (.v6 ⟨0x2001, 0xdb8, 0, 0, 0, 0, 0, 1⟩) = false) ∧
    (MustBlock (.v4 ⟨100, 64, 0, 1⟩) ∧ isBlockedIp (.v4 ⟨100, 64, 0, 1⟩) = false) ∧
    MustBlock (.v6 ⟨0x64, 0xff9b, 0, 0, 0, 0, 0x7f00, 1⟩) ∧
      isBlockedIp (.v6 ⟨0x64, 0xff9b, 0, 0, 0, 0, 0x7f00, 1⟩) = false :=
  ⟨⟨Or.inl (by decide), by decide⟩, ⟨by unfold MustBlock; decide, by decide⟩,
    Or.inr ⟨⟨127, 0, 0, 1⟩, by decide, by decide⟩, by decide⟩

end OpenAgentGraph
