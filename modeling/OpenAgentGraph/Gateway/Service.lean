/-
  The resolution engine of the gateway (`oag-api`: `gateway.rs`): cache,
  quorum over the query peers, own origin, relay.

  The code runs against a `Host` (clocks, random bytes, the rate limiter, the
  shared cache and the upstream servers, over a state `Ω` of which nothing is
  known) and a function `post` that sends a request to another peer.  Only
  `post` may never return: a computation is an `Io`, and its value `none`
  says that it does not.
-/
import OpenAgentGraph.Core
import OpenAgentGraph.Gateway.Wire

namespace OpenAgentGraph

open Lib

/-! ## Configuration -/

structure GatewayConfig where
  hopsRemaining : UInt8 := 8
  /-- Zero: every query peer. -/
  fanoutCount : ℕ := 0
  quorumMinAgree : ℕ := 2
  ntpToleranceMs : Int64 := 1000
  ntpUpstreamServers : List String := []
  ntpCacheTtlMs : Int64 := 2000
  httpAllowUpstream : Bool := false
  httpAllowPrivateNetworks : Bool := false
  httpMaxResponseBytes : ℕ := 2 * 1024 * 1024
  httpDefaultCacheTtlMs : Int64 := 5000
  httpMaxCacheTtlMs : Int64 := 60000

/-- A configured peer: where it is asked, and who has to answer. -/
structure RelayPeer (H : Type) where
  address : String
  peerId : H
  deriving DecidableEq

/-- The part of `AppState` that the gateway reads. -/
structure GatewayState (H : Type) where
  identity : Prims.PeerIdentity
  queryPeers : List (RelayPeer H)
  relayPeers : List (RelayPeer H)
  config : GatewayConfig

/-! ## The cache -/

/-- An answer, the instant it was stored (in nanoseconds), and its lifetime. -/
structure CacheEntry where
  result : GatewayResult
  computedAt : ℕ
  ttlMs : ℕ

abbrev GatewayCache := List (String × CacheEntry)

namespace GatewayCache

def key : GatewayService → String
  | .ntp => "ntp"
  | .http url => "http:" ++ url

def lookup (c : GatewayCache) (k : String) : Option CacheEntry :=
  (c.find? fun e => e.1 = k).map Prod.snd

def insert (c : GatewayCache) (k : String) (e : CacheEntry) : GatewayCache :=
  (k, e) :: c.filter fun e' => e'.1 ≠ k

end GatewayCache

/-- A cached time moves on with the clock. -/
def adjustForElapsed (result : GatewayResult) (elapsedNs : ℕ) : GatewayResult :=
  match result with
  | .ntp t => .ntp (t + Int64.ofNat (elapsedNs / 1000000))
  | other => other

def CacheEntry.fresh (e : CacheEntry) (now : ℕ) : Option GatewayResult :=
  if e.ttlMs = 0 ∨ e.ttlMs * 1000000 ≤ now - e.computedAt then none
  else some (adjustForElapsed e.result (now - e.computedAt))

/-- The decimal digits of a number below `2 ^ 64`, as `str::parse::<u64>` reads them. -/
def parseU64 (s : List Char) : Option ℕ :=
  let digits := if s.head? = some '+' then s.tail else s
  if digits = [] ∨ digits.any fun c => !c.isDigit then none
  else
    let n := digits.foldl (fun n c => 10 * n + (c.toNat - '0'.toNat)) 0
    if n < 2 ^ 64 then some n else none

/-- The seconds of a `max-age=` directive. -/
def maxAgeOf (directive : String) : Option ℕ :=
  if "max-age=".toList.isPrefixOf directive.toList then parseU64 (directive.toList.drop 8) else none

def parseMaxAge (cacheControlLower : String) : Option ℕ :=
  (cacheControlLower.toList.splitOn ',').findSome? fun d => maxAgeOf (trim (String.ofList d))

/-- A lifetime in milliseconds; a negative one counts as zero. -/
def millis (ms : Int64) : ℕ := ms.toInt.toNat

variable {H : Type}

/-- The lifetime of a cached answer, in milliseconds. -/
def Prims.computeCacheTtl (P : Prims H) (service : GatewayService) (result : GatewayResult)
    (config : GatewayConfig) : ℕ :=
  match service, result with
  | .ntp, _ => millis config.ntpCacheTtlMs
  | .http _, .http _ _ _ none => millis config.httpDefaultCacheTtlMs
  | .http _, .http _ _ _ (some cc) =>
    let lower := P.toLowercase cc
    if "no-store".toList <:+: lower.toList ∨ "no-cache".toList <:+: lower.toList then 0
    else
      match parseMaxAge lower with
      | some maxAgeSecs =>
        min (min (maxAgeSecs * 1000) (2 ^ 64 - 1)) (millis config.httpMaxCacheTtlMs)
      | none => millis config.httpDefaultCacheTtlMs
  | .http _, .ntp _ => 0

/-! ## The quorum -/

/-- How a resolution ends without an answer. -/
inductive Failure
  | error (e : GatewayError)
  /-- An index out of bounds: the task that resolves the query dies. -/
  | panic
  deriving DecidableEq

/-- What a query peer returned. -/
abbrev PeerOutcome := Except GatewayError GatewayResult

/-- The successful outcomes that are times. -/
def ntpValues (outcomes : List PeerOutcome) : List Int64 :=
  outcomes.filterMap fun
    | .ok (.ntp t) => some t
    | _ => none

/-- The values within the tolerance of `v`. -/
def cluster (tolerance : Int64) (values : List Int64) (v : Int64) : List Int64 :=
  values.filter fun o => absDiff o v ≤ tolerance

/-- The first of the largest clusters. -/
def bestCluster (tolerance : Int64) (values : List Int64) : List Int64 :=
  values.foldl (fun best v =>
    if best.length < (cluster tolerance values v).length then cluster tolerance values v else best) []

def aggregateNtp (outcomes : List PeerOutcome) (tolerance : Int64) (minAgree : ℕ) :
    Except Failure GatewayResult :=
  let best := bestCluster tolerance (ntpValues outcomes)
  if best.length < minAgree then .error (.error .noQuorum)
  else
    match (best.mergeSort fun a b => decide (a ≤ b))[best.length / 2]? with
    | some median => .ok (.ntp median)
    | none => .error .panic

/-- The content hash of an HTTP result. -/
def GatewayResult.contentHash? : GatewayResult → Option String
  | .http _ contentHash _ _ => some contentHash
  | .ntp _ => none

/-- Appends a result to the group of its content hash. -/
def pushGroup (hash : String) (r : GatewayResult) :
    List (String × List GatewayResult) → List (String × List GatewayResult)
  | [] => [(hash, [r])]
  | (h, rs) :: groups =>
    if h = hash then (h, rs ++ [r]) :: groups else (h, rs) :: pushGroup hash r groups

/-- The HTTP results, by content hash. -/
def httpGroups (outcomes : List PeerOutcome) : List (String × List GatewayResult) :=
  outcomes.foldl (fun groups o =>
    match o with
    | .ok (.http status hash body cc) => pushGroup hash (.http status hash body cc) groups
    | _ => groups) []

/-- The order in which the map of the groups is iterated. -/
structure GroupOrder where
  order : List (String × List GatewayResult) → List (String × List GatewayResult)
  perm : ∀ m, (order m).Perm m

/-- `Iterator::max_by_key` on the length: the last of the longest. -/
def longestGroup : List (String × List GatewayResult) → Option (String × List GatewayResult)
  | [] => none
  | g :: groups =>
    some (groups.foldl (fun best g => if best.2.length ≤ g.2.length then g else best) g)

def aggregateHttp (order : GroupOrder) (outcomes : List PeerOutcome) (minAgree : ℕ) :
    Except Failure GatewayResult :=
  match longestGroup (order.order (httpGroups outcomes)) with
  | none => .error (.error .noQuorum)
  | some (_, group) =>
    if group.length < minAgree then .error (.error .noQuorum)
    else
      match group with
      | r :: _ => .ok r
      | [] => .error .panic

def aggregateQuorum (order : GroupOrder) (service : GatewayService) (outcomes : List PeerOutcome)
    (tolerance : Int64) (minAgree : ℕ) : Except Failure GatewayResult :=
  match service with
  | .ntp => aggregateNtp outcomes tolerance minAgree
  | .http _ => aggregateHttp order outcomes minAgree

/-! ## Resolution -/

/-- Computations over a state `Ω` that may never return. -/
abbrev Io (Ω : Type) := StateT Ω Option

/-- A computation that always returns. -/
def Io.of {Ω α : Type} (f : Ω → α × Ω) : Io Ω α := fun ω => some (f ω)

/-- How a request to another peer failed. -/
inductive PostError
  | failed (e : String)
  | answered (status : UInt16)
  | json (e : String)
  deriving DecidableEq, Repr

/-- What the gateway of one peer runs on. -/
structure Host (Ω : Type) where
  nowUnix : Ω → Int64 × Ω
  /-- The monotonic clock, in nanoseconds. -/
  instant : Ω → ℕ × Ω
  randomBytes32 : Ω → Bytes × Ω
  length_randomBytes32 : ∀ ω, (randomBytes32 ω).1.length = 32
  rateLimiterCheck : String → Ω → Bool × Ω
  cache : Ω → GatewayCache
  setCache : GatewayCache → Ω → Ω
  cache_setCache : ∀ c ω, cache (setCache c ω) = c
  groupOrder : Ω → GroupOrder
  queryUpstream : String → Ω → Except String Int64 × Ω
  fetchUpstreamHttp : String → Bool → ℕ → Ω → Except GatewayError GatewayResult × Ω

/-- Sends a request to a URL. -/
abbrev Post (Ω : Type) := String → GatewayRequest → Io Ω (Except PostError GatewayResponse)

namespace Host

variable {Ω : Type} (host : Host Ω)

def cacheGet (service : GatewayService) : Io Ω (Option GatewayResult) := do
  match (host.cache (← get)).lookup (GatewayCache.key service) with
  | none => return none
  | some entry => return entry.fresh (← Io.of host.instant)

def cachePut (service : GatewayService) (result : GatewayResult) (ttlMs : ℕ) : Io Ω Unit := do
  if ttlMs = 0 then return
  let now ← Io.of host.instant
  modify fun ω => host.setCache ((host.cache ω).insert (GatewayCache.key service)
    { result := result, computedAt := now, ttlMs := ttlMs }) ω

/-- The first upstream NTP server that answers. -/
def queryUpstreams : List String → Io Ω PeerOutcome
  | [] => return .error (.ntpUpstream "every configured upstream NTP server failed")
  | server :: servers => do
    match ← Io.of (host.queryUpstream server) with
    | .ok t => return .ok (.ntp t)
    | .error _ => queryUpstreams servers

def resolveDirectly (config : GatewayConfig) (service : GatewayService) :
    Io Ω (Except GatewayError (Option GatewayResult)) :=
  match service with
  | .ntp =>
    if config.ntpUpstreamServers = [] then return .ok none
    else do return (← host.queryUpstreams config.ntpUpstreamServers).map some
  | .http url =>
    if config.httpAllowUpstream then do
      return (← Io.of (host.fetchUpstreamHttp url config.httpAllowPrivateNetworks
        config.httpMaxResponseBytes)).map some
    else return .ok none

end Host

/-- `trim_end_matches('/')`. -/
def trimEndSlashes (s : String) : String :=
  String.ofList (s.toList.reverse.dropWhile (· = '/')).reverse

def queryUrl {H : Type} (peer : RelayPeer H) : String :=
  trimEndSlashes peer.address ++ "/oag/gateway/v1/query"

/-- The text of the error of a failed request. -/
def postErrorText {H : Type} (peer : RelayPeer H) : PostError → String
  | .failed e => "gateway query to " ++ peer.address ++ " failed: " ++ e
  | .answered status => "gateway query to " ++ peer.address ++ " answered " ++ toString status
  | .json e => e

/-- A time moves on by half the round trip, of which the milliseconds count. -/
def addHalfRtt (result : GatewayResult) (rttNs : ℕ) : GatewayResult :=
  match result with
  | .ntp t => .ntp (t + Int64.ofNat (rttNs / 1000000) / 2)
  | other => other

/-- The number of query peers that are asked. -/
def fanoutN (s : GatewayState H) : ℕ :=
  if s.config.fanoutCount = 0 then s.queryPeers.length
  else min s.config.fanoutCount s.queryPeers.length

/-- The query peers that a fan-out asks. -/
def GatewayState.asked (s : GatewayState H) : List (RelayPeer H) := s.queryPeers.take (fanoutN s)

structure ResolvedQuery where
  result : GatewayResult
  servedFrom : ServedFrom

/-- What a front-end listener checks before it starts. -/
def requireQuorumCapable (s : GatewayState H) : Except String Unit :=
  if s.queryPeers.length < s.config.quorumMinAgree then
    .error ("[gateway] front-end requires at least " ++ toString s.config.quorumMinAgree ++
      " query_peers to meet quorum_min_agree (configured: " ++ toString s.queryPeers.length ++ ")")
  else .ok ()

namespace Prims

variable (P : Prims H) [DecidableEq H] {Ω : Type} (host : Host Ω) (post : Post Ω)
  (s : GatewayState H)

/-- Asks exactly one peer. -/
def queryPeer (peer : RelayPeer H) (service : GatewayService) (hopsRemaining : UInt8)
    (path : List String) : Io Ω PeerOutcome := do
  let nonce ← Io.of host.randomBytes32
  let requestedAt ← Io.of host.nowUnix
  let request :=
    P.buildAndSignGatewayRequest s.identity service nonce requestedAt hopsRemaining path
  let sentAt ← Io.of host.instant
  let response ← post (queryUrl peer) request
  let receivedAt ← Io.of host.instant
  match response with
  | .error e => return .error (.internal (postErrorText peer e))
  | .ok resp =>
    let now ← Io.of host.nowUnix
    match P.verifyGatewayResponse resp nonce now with
    | .error e => return .error e
    | .ok verifiedPeer =>
      if verifiedPeer ≠ peer.peerId then return .error .peerIdKeyMismatch
      else return .ok (addHalfRtt resp.unsigned.result (receivedAt - sentAt))

/-- The relay peers in turn: those already on the path are passed over, and
    the first success wins. -/
def relayLoop (service : GatewayService) (hopsRemaining : UInt8) (nextPath : List String) :
    List (RelayPeer H) → Io Ω (Option GatewayResult)
  | [] => return none
  | peer :: peers =>
    if P.peerIdToString peer.peerId ∈ nextPath then
      relayLoop service hopsRemaining nextPath peers
    else do
      match ← P.queryPeer host post s peer service (hopsRemaining - 1) nextPath with
      | .ok result => return some result
      | .error _ => relayLoop service hopsRemaining nextPath peers

def relayGatewayQuery (service : GatewayService) (hopsRemaining : UInt8) (path : List String) :
    Io Ω (Option GatewayResult) :=
  if hopsRemaining = 0 ∨ s.relayPeers = [] then return none
  else P.relayLoop host post s service hopsRemaining
    (path ++ [P.peerIdToString (s.identity.peerId P)]) s.relayPeers

/-- The outcomes of the query peers that are asked, in the order they are
    configured: each with the whole hop budget and an empty path. -/
def fanout (service : GatewayService) : Io Ω (List PeerOutcome) :=
  s.asked.mapM fun peer => P.queryPeer host post s peer service s.config.hopsRemaining []

def fanoutAndVerify (service : GatewayService) : Io Ω (Except Failure GatewayResult) := do
  let outcomes ← P.fanout host post s service
  let order := host.groupOrder (← get)
  return aggregateQuorum order service outcomes s.config.ntpToleranceMs s.config.quorumMinAgree

/-- The last two steps of a resolution: the own origin, then the relay peers. -/
def resolveUnverified (service : GatewayService) (hopsRemaining : UInt8) (path : List String) :
    Io Ω (Except Failure ResolvedQuery) := do
  match ← host.resolveDirectly s.config service with
  | .ok (some result) => return .ok ⟨result, .origin⟩
  -- not an origin of this service, or the attempt failed
  | .ok none | .error _ =>
    match ← P.relayGatewayQuery host post s service hopsRemaining path with
    | some result => return .ok ⟨result, .relay⟩
    | none => return .error (.error .cannotResolve)

def resolveGatewayQuery (service : GatewayService) (hopsRemaining : UInt8) (path : List String) :
    Io Ω (Except Failure ResolvedQuery) := do
  match ← host.cacheGet service with
  | some result => return .ok ⟨result, .cache⟩
  | none =>
    if s.queryPeers ≠ [] then
      match ← P.fanoutAndVerify host post s service with
      | .error e => return .error e
      | .ok verified =>
        host.cachePut service verified (P.computeCacheTtl service verified s.config)
        return .ok ⟨verified, .quorum⟩
    else P.resolveUnverified host post s service hopsRemaining path

/-- A fresh resolution, with the peer's own hop budget. -/
def resolveFrontEnd (service : GatewayService) : Io Ω (Except Failure ResolvedQuery) :=
  P.resolveGatewayQuery host post s service s.config.hopsRemaining []

def resolveForFrontEnd (service : GatewayService) : Io Ω (Except Failure GatewayResult) := do
  return (← P.resolveFrontEnd host post s service).map (·.result)

/-- `POST /oag/gateway/v1/query`. -/
def queryInner (req : GatewayRequest) : Io Ω (Except Failure GatewayResponse) := do
  let now ← Io.of host.nowUnix
  match P.verifyGatewayRequest req now with
  | .error e => return .error (.error e)
  | .ok (requester, nonce) =>
    if ← Io.of (host.rateLimiterCheck (P.peerIdToString requester)) then
      match ← P.resolveGatewayQuery host post s req.unsigned.service req.unsigned.hopsRemaining
        req.unsigned.path with
      | .error e => return .error e
      | .ok resolved =>
        let now ← Io.of host.nowUnix
        return .ok (P.buildAndSignGatewayResponse s.identity resolved.result nonce now
          resolved.servedFrom)
    else return .error (.error .rateLimited)

end Prims

end OpenAgentGraph
