/-
  The addresses that the crawler and the gateway do not fetch from
  (`oag-crawler`: `ssrf.rs`).
-/
import OpenAgentGraph.Lib.IpAddr

namespace OpenAgentGraph

open Lib

def isBlockedV4 (v4 : Ipv4Addr) : Bool :=
  v4.isLoopback || v4.isPrivate || v4.isLinkLocal || v4.isUnspecified || v4.isBroadcast
    || v4.isDocumentation || v4.isMulticast || v4.a == 0

/-- `fc00::/7`. -/
def isUniqueLocalV6 (v6 : Ipv6Addr) : Bool := v6.s0 &&& 0xfe00 == 0xfc00

/-- `fe80::/10`. -/
def isUnicastLinkLocalV6 (v6 : Ipv6Addr) : Bool := v6.s0 &&& 0xffc0 == 0xfe80

def isBlockedV6 (v6 : Ipv6Addr) : Bool :=
  match v6.toIpv4Mapped with
  | some mapped => isBlockedV4 mapped
  | none =>
    v6.isLoopback || v6.isUnspecified || v6.isMulticast || isUniqueLocalV6 v6
      || isUnicastLinkLocalV6 v6

def isBlockedIp : IpAddr → Bool
  | .v4 v4 => isBlockedV4 v4
  | .v6 v6 => isBlockedV6 v6

end OpenAgentGraph
