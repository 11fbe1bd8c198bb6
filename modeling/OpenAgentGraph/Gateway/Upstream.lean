/-
  The upstream fetch of the gateway (`oag-api`: `gateway.rs`), over the
  resolver and the pinned client of the crawler.
-/
import OpenAgentGraph.Crawler.Fetch
import OpenAgentGraph.Gateway.Wire

namespace OpenAgentGraph

open Lib Lib.Sending

/-- `MAX_HTTP_REDIRECTS`. -/
def maxHttpRedirects : Nat := 5

def SocketAddr.isIpv4 (addr : SocketAddr) : Bool :=
  match addr.ip with
  | .v4 _ => true
  | .v6 _ => false

/-- The first IPv4 address alone, if there is one. -/
def preferIpv4 (addrs : List SocketAddr) : List SocketAddr :=
  match addrs.find? SocketAddr.isIpv4 with
  | some addr => [addr]
  | none => addrs

namespace Internet

variable {U Ω H : Type} (net : Internet U Ω) (P : Prims H)

def blockedBy (e : CrawlError) : GatewayError := .upstreamBlocked e.display

/-- What becomes of a response that is no redirect. -/
def readUpstream (maxResponseBytes : Nat) (response : HttpResponse U) :
    Except GatewayError GatewayResult :=
  match response.contentLength.filter (maxResponseBytes < ·) with
  | some len => .error (.upstreamBlocked ("response too large (" ++ toString len ++ " bytes)"))
  | none =>
    (readBody maxResponseBytes .upstreamBlocked
      (.upstreamBlocked ("response exceeded " ++ toString maxResponseBytes ++ " bytes")) []
      response.chunks).map fun body =>
        .http response.status (contentHash P body) body response.cacheControl

/-- One hop. -/
def fetchUpstreamHop (allowPrivateNetworks : Bool) (maxResponseBytes hop : Nat) (current : U) :
    Program Ω (Sent U) GatewayError (Round U GatewayResult) := do
  let scheme := net.scheme current
  if scheme ≠ "http" ∧ scheme ≠ "https" then
    throw (.upstreamBlocked ("unsupported scheme '" ++ scheme ++ "'"))
  else do
    let host ← okOr (.upstreamBlocked "no host") (net.hostStr current)
    let port ← okOr (.upstreamBlocked "no port") (net.portOrKnownDefault current)
    let resolved ← mapError blockedBy (net.resolveAndValidate host port allowPrivateNetworks)
    let addrs := preferIpv4 resolved
    let client ← mapError blockedBy (net.buildPinnedClient host addrs
      ⟨allowPrivateNetworks, maxResponseBytes, 15,
        "oag-gateway/0.1 (+https://github.com/webdawg/open-agent-graph)"⟩)
    let response ← mapError .upstreamBlocked (net.sendRequest client current resolved)
    if isRedirection response.status then
      if hop = maxHttpRedirects then throw (.upstreamBlocked "too many redirects")
      else do
        let location ← okOr (.upstreamBlocked "redirect without Location") response.location
        let next ← okOr (.upstreamBlocked "invalid redirect location") (net.join current location)
        return .again next
    else return .done (← settle (readUpstream P maxResponseBytes response))

/-- `fetch_upstream_http`. -/
def fetchUpstreamHttp (url : String) (allowPrivateNetworks : Bool) (maxResponseBytes : Nat) :
    Program Ω (Sent U) GatewayError GatewayResult := do
  let current ← settle ((net.parse url).mapError fun e => .upstreamBlocked ("invalid url: " ++ e))
  loop (fetchUpstreamHop net P allowPrivateNetworks maxResponseBytes)
    (.upstreamBlocked "too many redirects") (maxHttpRedirects + 1) 0 current

end Internet

end OpenAgentGraph
