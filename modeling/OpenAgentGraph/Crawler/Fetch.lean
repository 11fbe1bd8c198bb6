/-
  Fetching a page (`oag-crawler`: `fetch.rs`).

  The URL type, the resolver and the HTTP client belong to other crates: an
  `Internet` is any behaviour of theirs, over a state `Ω` of which nothing is
  known, so that answers may change between two questions.
-/
import OpenAgentGraph.Core
import OpenAgentGraph.Crawler.Ssrf
import OpenAgentGraph.Lib.Sending

namespace OpenAgentGraph

open Lib Lib.Sending

/-- `MAX_REDIRECTS`. -/
def maxRedirects : Nat := 5

def allowedContentTypes : List String :=
  ["text/html", "application/xhtml+xml", "application/json", "application/ld+json", "text/plain",
    "text/markdown"]

/-- `request_timeout` is in seconds. -/
structure CrawlerConfig where
  allowPrivateNetworks : Bool := false
  maxResponseBytes : Nat := 10 * 1024 * 1024
  requestTimeout : Nat := 30
  userAgent : String := "oag-crawler/0.1 (+https://github.com/webdawg/open-agent-graph)"

/-- An error of the resolver or of the client is its text. -/
inductive CrawlError
  | unsupportedScheme (scheme : String)
  | noHost
  | dnsResolutionFailed (host e : String)
  | noAddresses (host : String)
  | blockedAddress (ip : IpAddr)
  | tooManyRedirects (limit : Nat)
  | redirectWithoutLocation
  | responseTooLarge (cap : Nat)
  | unsupportedContentType (contentType : String)
  | http (e : String)
  | clientBuild (e : String)
  deriving DecidableEq

def CrawlError.display : CrawlError → String
  | unsupportedScheme s => "unsupported URL scheme '" ++ s ++ "', only http/https are crawled"
  | noHost => "URL has no host"
  | dnsResolutionFailed host e => "DNS resolution failed for '" ++ host ++ "': " ++ e
  | noAddresses host => "DNS resolution for '" ++ host ++ "' returned no addresses"
  | blockedAddress ip => "address " ++ ip.display
      ++ " is blocked by SSRF policy (private/loopback/link-local/reserved)"
  | tooManyRedirects limit => "too many redirects (limit " ++ toString limit ++ ")"
  | redirectWithoutLocation => "redirect had no Location header"
  | responseTooLarge cap => "response exceeded the " ++ toString cap ++ "-byte size cap"
  | unsupportedContentType t => "unsupported content-type '" ++ t ++ "'"
  | http e => "http request failed: " ++ e
  | clientBuild e => "http client build failed: " ++ e

/-! ## The environment -/

structure SocketAddr where
  ip : IpAddr
  port : UInt16
  deriving DecidableEq

/-- A client that resolves `host` to the addresses it is pinned to, and follows
    no redirect. -/
structure PinnedClient where
  host : String
  addrs : List SocketAddr
  requestTimeout : Nat
  userAgent : String

/-- A header is absent when it is not valid text.  `chunks` are the parts of
    the body as they arrive. -/
structure HttpResponse (U : Type) where
  status : UInt16
  location : Option String
  contentType : Option String
  cacheControl : Option String
  contentLength : Option Nat
  url : U
  chunks : List (Except String Bytes)

/-- One request: the addresses that the client connected to, and what came
    back. -/
structure Exchange (U : Type) where
  connected : List SocketAddr
  response : Except String (HttpResponse U)

structure Internet (U Ω : Type) where
  parse : String → Except String U
  scheme : U → String
  hostStr : U → Option String
  portOrKnownDefault : U → Option UInt16
  join : U → String → Option U
  /-- The text of `error_for_status` for a response. -/
  statusError : UInt16 → U → String
  lookupHost : String → UInt16 → Ω → Except String (List SocketAddr) × Ω
  build : PinnedClient → Ω → Except String Unit × Ω
  send : PinnedClient → U → Ω → Exchange U × Ω

/-- The record of one request: the addresses that its host resolved to in this
    hop, and those that the client connected to. -/
structure Sent (U : Type) where
  url : U
  resolved : List SocketAddr
  connected : List SocketAddr

/-! ## Resolution and clients -/

namespace Internet

variable {U Ω ε : Type} (net : Internet U Ω)

/-- Resolves the host and validates every address. -/
def resolveAndValidate (host : String) (port : UInt16) (allowPrivateNetworks : Bool) :
    Program Ω (Sent U) CrawlError (List SocketAddr) := do
  let addrs ← settle ((← call (net.lookupHost host port)).mapError (.dnsResolutionFailed host))
  if addrs = [] then throw (.noAddresses host)
  else if allowPrivateNetworks then return addrs
  else
    match addrs.find? fun addr => isBlockedIp addr.ip with
    | some addr => throw (.blockedAddress addr.ip)
    | none => return addrs

def buildPinnedClient (host : String) (addrs : List SocketAddr) (config : CrawlerConfig) :
    Program Ω (Sent U) CrawlError PinnedClient := do
  let client : PinnedClient := ⟨host, addrs, config.requestTimeout, config.userAgent⟩
  settle ((← call (net.build client)).mapError .clientBuild)
  return client

/-- `client.get(url).send()`. -/
def sendRequest (client : PinnedClient) (url : U) (resolved : List SocketAddr) :
    Program Ω (Sent U) String (HttpResponse U) := do
  let exchange ← call (net.send client url)
  record ⟨url, resolved, exchange.connected⟩
  settle exchange.response

/-! ## Responses -/

def isRedirection (status : UInt16) : Bool := decide (300 ≤ status) && decide (status < 400)

/-- A status of the client or the server error class. -/
def isErrorStatus (status : UInt16) : Bool := decide (400 ≤ status) && decide (status < 600)

/-- Reads the body until its end, an error, or the cap. -/
def readBody (max : Nat) (failed : String → ε) (tooLarge : ε) :
    Bytes → List (Except String Bytes) → Except ε Bytes
  | body, [] => .ok body
  | _, .error e :: _ => .error (failed e)
  | body, .ok chunk :: chunks =>
    if max < (body ++ chunk).length then .error tooLarge
    else readBody max failed tooLarge (body ++ chunk) chunks

/-! ## `safe_fetch` -/

structure FetchedPage (U : Type) where
  finalUrl : U
  contentType : String
  body : Bytes
  contentHash : String

variable {H : Type} (P : Prims H)

/-- `blake3_content_hash`. -/
def contentHash (body : Bytes) : String := "blake3:" ++ P.toHex (P.blake3 body)

/-- The media type of a `Content-Type` header. -/
def mediaType (header : Option String) : String :=
  P.toLowercase (trim (String.ofList (((header.getD "").toList.splitOn ';').headD [])))

/-- What becomes of a response that is no redirect. -/
def readPage (config : CrawlerConfig) (response : HttpResponse U) :
    Except CrawlError (FetchedPage U) :=
  let contentType := mediaType P response.contentType
  if isErrorStatus response.status then
    .error (.http (net.statusError response.status response.url))
  else if contentType ∉ allowedContentTypes then .error (.unsupportedContentType contentType)
  else if response.contentLength.any (config.maxResponseBytes < ·) then
    .error (.responseTooLarge config.maxResponseBytes)
  else
    (readBody config.maxResponseBytes .http (.responseTooLarge config.maxResponseBytes) []
      response.chunks).map fun body => ⟨response.url, contentType, body, contentHash P body⟩

/-- One hop. -/
def safeFetchHop (config : CrawlerConfig) (hop : Nat) (current : U) :
    Program Ω (Sent U) CrawlError (Round U (FetchedPage U)) := do
  let scheme := net.scheme current
  if scheme ≠ "http" ∧ scheme ≠ "https" then throw (.unsupportedScheme scheme)
  else do
    let host ← okOr .noHost (net.hostStr current)
    let port ← okOr .noHost (net.portOrKnownDefault current)
    let addrs ← net.resolveAndValidate host port config.allowPrivateNetworks
    let client ← net.buildPinnedClient host addrs config
    let response ← mapError .http (net.sendRequest client current addrs)
    if isRedirection response.status then
      if hop = maxRedirects then throw (.tooManyRedirects maxRedirects)
      else do
        let location ← okOr .redirectWithoutLocation response.location
        let next ← okOr .redirectWithoutLocation (net.join current location)
        return .again next
    else return .done (← settle (readPage net P config response))

def safeFetch (url : U) (config : CrawlerConfig) : Program Ω (Sent U) CrawlError (FetchedPage U) :=
  loop (safeFetchHop net P config) (.tooManyRedirects maxRedirects) (maxRedirects + 1) 0 url

end Internet

end OpenAgentGraph
