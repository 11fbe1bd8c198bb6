/-
  Replication between peers (`oag-sync`: `federation.rs`, `service.rs`,
  `server.rs`): the handlers a peer serves, and the pull and push of events.

  A pull is not one transaction: what it wrote before an error stays, so
  `syncWithPeer` returns the store together with its result.  The remote side
  is a `Remote`, any three functions at all; `serve` is the remote of a peer
  that runs this code.
-/
import OpenAgentGraph.Events.Log
import OpenAgentGraph.Sync.Wire

namespace OpenAgentGraph

open Lib Repo

variable {H : Type}

/-! ## The service -/

inductive FederationPolicy (H : Type)
  | anyOrigin
  | allowlist (peers : List H)

def FederationPolicy.allows [DecidableEq H] (p : FederationPolicy H) (peerId : H) : Bool :=
  match p with
  | anyOrigin => true
  | allowlist peers => decide (peerId ∈ peers)

/-- One peer's replication settings. -/
structure SyncService (H : Type) where
  selfPeerId : H
  selfPublicKey : Bytes
  federation : FederationPolicy H
  /-- Whether `compute_trust` reaches `minimum_trust`; none when the minimum is not positive. -/
  trusted : Option (Store H → H → Int64 → Bool)
  ownCluster : Option String
  mapOrder : MapOrder

namespace SyncService

variable [DecidableEq H] (svc : SyncService H)

def sameCluster (s : Store H) (peerId : H) : Bool :=
  match svc.ownCluster with
  | none => false
  | some mine =>
    match getClusterClaim s.peerClusterClaims peerId with
    | some claim => decide (claim.cluster = mine)
    | none => false

/-- A peer of the same cluster is always allowed; else the policy decides, and
    then the trust score. -/
def federationAllows (s : Store H) (peerId : H) (now : Int64) : Bool :=
  if svc.sameCluster s peerId then true
  else if !svc.federation.allows peerId then false
  else
    match svc.trusted with
    | none => true
    | some trusted => trusted s peerId now

end SyncService

/-! ## The handlers -/

inductive StatusCode
  | badRequest
  | payloadTooLarge
  | internalServerError
  deriving DecidableEq, Repr

def maxEventsPerFetch : Int64 := 1000
def maxEventsPerPush : ℕ := 1000

namespace Prims

variable (P : Prims H)

/-- `decode_hex32`, of an id. -/
def decodeHex32 (text : String) : Option H := (P.hashFromStr text).toOption

/-- `decode_hex32`, of a public key. -/
def decodeKey32 (text : String) : Option Bytes :=
  match hexDecode text with
  | .ok b => if b.length = 32 then some b else none
  | .error _ => none

/-- The head sequence of every origin. -/
def localHeads (s : Store H) : List (String × UInt64) :=
  s.eventOrigins.map fun r => (P.toHex r.originPeerId, r.highestContiguousSequence.toUInt64)

def hello (svc : SyncService H) (s : Store H) : HelloResponse where
  protocol := syncProtocol
  version := syncVersion
  peerId := P.peerIdToString svc.selfPeerId
  publicKey := hexEncode svc.selfPublicKey
  heads := P.localHeads s

variable [DecidableEq H]

/-- The last sequence number that one response holds. -/
def pageEnd (lo hi : Int64) : Int64 :=
  if hi ≤ lo + maxEventsPerFetch - 1 then hi else lo + maxEventsPerFetch - 1

def getEvents (s : Store H) (originHex : String) (lo hi : UInt64) :
    Except StatusCode (List SignedEvent) :=
  match P.decodeHex32 originHex with
  | none => .error .badRequest
  | some origin =>
    if hi < lo then .error .badRequest
    else
      let rows := listRange s.events origin lo.toInt64 (pageEnd lo.toInt64 hi.toInt64)
      match rows.mapM fun row => P.signedFromSlice row.canonicalPayload with
      | .ok events => .ok events
      | .error _ => .error .internalServerError

/-- The records of `GET /peers`. -/
def peerRecords (s : Store H) : List PeerRecord :=
  match listPeers s.peers with
  | .error _ => []
  | .ok infos => infos.map fun info =>
    { peerId := P.peerIdToString info.peerId
      publicKey := hexEncode info.publicKey
      addresses := listAddresses s.peerAddresses info.peerId
      lastSeen := info.lastSeen }

/-- The key stored for a peer, if it is one. -/
def knownKey (s : Store H) (peerId : H) : Option P.VerifyingKey :=
  match getPeer s.peers peerId with
  | .ok (some info) => P.keyFromBytes info.publicKey
  | _ => none

/-- One event of a push; says whether it was applied. -/
def pushEvent (svc : SyncService H) (now : Int64) (s : Store H) (signed : SignedEvent) :
    Store H × Bool :=
  match P.peerIdFromStr signed.unsigned.originPeer with
  | .error _ => (s, false)
  | .ok origin =>
    if !svc.federationAllows s origin now then (s, false)
    else
      match P.knownKey s origin with
      | none => (s, false)
      | some key =>
        match P.ingestRemoteEvent s key signed now with
        | .ok (s, .applied _ _) => (s, true)
        | .ok (s, _) => (s, false)
        | .error _ => (s, false)

def pushEvents (svc : SyncService H) (now : Int64) : Store H → List SignedEvent → ℕ × ℕ →
    Store H × (ℕ × ℕ)
  | s, [], counts => (s, counts)
  | s, signed :: rest, (applied, skipped) =>
    match P.pushEvent svc now s signed with
    | (s, true) => pushEvents svc now s rest (applied + 1, skipped)
    | (s, false) => pushEvents svc now s rest (applied, skipped + 1)

/-- `POST /events`: the store, and how many events were applied and skipped. -/
def postEvents (svc : SyncService H) (s : Store H) (events : List SignedEvent) (now : Int64) :
    Store H × Except StatusCode (ℕ × ℕ) :=
  if maxEventsPerPush < events.length then (s, .error .payloadTooLarge)
  else
    let (s, counts) := P.pushEvents svc now s events (0, 0)
    (s, .ok counts)

end Prims

/-! ## The remote side of a pull -/

/-- What a remote answers, or how the request failed. -/
structure Remote (ε : Type) where
  hello : Except ε HelloResponse
  fetchEvents : String → UInt64 → UInt64 → Except ε (List SignedEvent)
  fetchPeers : Except ε (List PeerRecord)

namespace Prims

variable (P : Prims H) [DecidableEq H]

/-- The body of `GET /hello`. -/
def helloBody (svc : SyncService H) (s : Store H) : Bytes :=
  P.toVec.write ((P.hello svc s).toJson svc.mapOrder)

/-- The body of `GET /events/{origin}`, or the error status. -/
def eventsBody (s : Store H) (originHex : String) (lo hi : UInt64) : Except StatusCode Bytes := do
  let events ← P.getEvents s originHex lo hi
  match eventsJson P.toVec events with
  | .ok j => .ok (P.toVec.write j)
  | .error _ => .error .internalServerError

/-- The body of `GET /peers`. -/
def peersBody (s : Store H) : Bytes := P.toVec.write (peersJson (P.peerRecords s))

/-- The remote of a peer that runs this code, over a network that loses nothing. -/
def serve (svc : SyncService H) (s : Store H) : Remote SyncClientError where
  hello := P.cappedJson readHello (P.helloBody svc s)
  fetchEvents := fun originHex lo hi =>
    match P.eventsBody s originHex lo hi with
    | .ok body => P.cappedJson P.readEvents body
    | .error _ => .error .http
  fetchPeers := P.cappedJson readPeers (P.peersBody s)

end Prims

/-! ## The pull -/

/-- What went wrong for one origin of a pull. -/
inductive SyncIssue (ε : Type)
  | fetchFailed (originHex : String) (e : ε)
  | ingestFailed (originHex : String) (sequence : UInt64) (e : EventsError)

structure SyncSummary (ε : Type) where
  applied : ℕ := 0
  alreadyKnown : ℕ := 0
  forks : ℕ := 0
  errors : List (SyncIssue ε) := []

inductive SyncError
  | client (e : SyncClientError)
  | storage (e : StorageError)
  | peerId (e : Prims.PeerIdParseError)
  | invalidPublicKey

def maxPeersPerResponse : ℕ := 200
def maxAddressesPerPeer : ℕ := 5
def maxTotalKnownPeers : ℕ := 10000

section pull

variable [DecidableEq H]

/-- Records who answered, where, and the heads it claims. -/
def recordHello (s : Store H) (remoteId : H) (publicKey : Bytes) (address : String)
    (heads : List (H × UInt64)) (now : Int64) : Store H × Except StorageError Unit :=
  let s := { s with peers := upsertPeer s.peers remoteId publicKey none now }
  match addAddress s.peers s.peerAddresses remoteId address with
  | .error e => (s, .error e)
  | .ok addresses =>
    let known := heads.foldl (fun t e => upsertKnownHead t remoteId e.1 e.2.toInt64 now)
      s.peerKnownHeads
    ({ s with peerAddresses := addresses, peerKnownHeads := known }, .ok ())

/-- Records a discovered peer and its first addresses; failures are ignored. -/
def learnPeer (s : Store H) (peerId : H) (publicKey : Bytes) (addresses : List String)
    (now : Int64) : Store H :=
  let s := { s with peers := upsertPeer s.peers peerId publicKey none now }
  (addresses.take maxAddressesPerPeer).foldl (fun s a =>
    match addAddress s.peers s.peerAddresses peerId a with
    | .ok t => { s with peerAddresses := t }
    | .error _ => s) s

end pull

namespace Prims

variable (P : Prims H) [DecidableEq H]

/-- The heads whose origin decodes. -/
def decodedHeads (heads : List (String × UInt64)) : List (H × UInt64) :=
  heads.filterMap fun e => (P.decodeHex32 e.1).map (·, e.2)

/-- One record of `/peers`: kept when its id is that of its key, and not our own. -/
def discoverPeer (svc : SyncService H) (now : Int64) (s : Store H) (r : PeerRecord) : Store H :=
  match P.peerIdFromStr r.peerId, decodeKey32 r.publicKey with
  | .ok pid, some pk =>
    if pid = svc.selfPeerId then s
    else
      match P.keyFromBytes pk with
      | none => s
      | some key => if pid ≠ P.peerIdOfKey key then s else learnPeer s pid pk r.addresses now
  | _, _ => s

def discoverPeers {ε : Type} (svc : SyncService H) (remote : Remote ε) (now : Int64) (s : Store H) :
    Store H :=
  match remote.fetchPeers with
  | .error _ => s
  | .ok peers =>
    if maxTotalKnownPeers ≤ s.peers.length then s
    else (peers.take maxPeersPerResponse).foldl (P.discoverPeer svc now) s

/-- Ingests the events of one response, up to the first fork or error. -/
def ingestEvents {ε : Type} (key : P.VerifyingKey) (originHex : String) (now : Int64) :
    Store H → SyncSummary ε → List SignedEvent → Store H × SyncSummary ε
  | s, summary, [] => (s, summary)
  | s, summary, signed :: rest =>
    match P.ingestRemoteEvent s key signed now with
    | .ok (s, .applied _ _) =>
      ingestEvents key originHex now s { summary with applied := summary.applied + 1 } rest
    | .ok (s, .alreadyKnown _) =>
      ingestEvents key originHex now s { summary with alreadyKnown := summary.alreadyKnown + 1 } rest
    | .ok (s, .forked _ _) => (s, { summary with forks := summary.forks + 1 })
    | .error e => (s, { summary with
        errors := summary.errors ++ [.ingestFailed originHex signed.unsigned.sequence e] })

/-- The key of an origin: the remote's own, or one stored in `peers`. -/
def originKey (s : Store H) (remoteId : H) (remoteKey : P.VerifyingKey) (origin : H) :
    Except StorageError (Option P.VerifyingKey) :=
  if origin = remoteId then .ok (some remoteKey)
  else
    match getPeer s.peers origin with
    | .error e => .error e
    | .ok none => .ok none
    | .ok (some info) => .ok (P.keyFromBytes info.publicKey)

/-- Pulls one origin: what the remote has beyond the local head. -/
def pullOrigin {ε : Type} (allows : Store H → H → Bool) (remote : Remote ε) (remoteId : H)
    (remoteKey : P.VerifyingKey) (heads : List (String × UInt64)) (now : Int64) (s : Store H)
    (summary : SyncSummary ε) (originHex : String) (remoteSeq : UInt64) :
    Store H × Except StorageError (SyncSummary ε) :=
  match P.decodeHex32 originHex with
  | none => (s, .ok summary)
  | some origin =>
    if !allows s origin then (s, .ok summary)
    else
      let localSeq := (heads.lookup originHex).getD 0
      if remoteSeq ≤ localSeq then (s, .ok summary)
      else
        match P.originKey s remoteId remoteKey origin with
        | .error e => (s, .error e)
        | .ok none => (s, .ok summary)
        | .ok (some key) =>
          match remote.fetchEvents originHex (localSeq + 1) remoteSeq with
          | .error e =>
            (s, .ok { summary with errors := summary.errors ++ [.fetchFailed originHex e] })
          | .ok events =>
            let (s, summary) := P.ingestEvents key originHex now s summary events
            (s, .ok summary)

/-- Pulls every origin that the remote claims a head for. -/
def pullLoop {ε : Type} (allows : Store H → H → Bool) (remote : Remote ε) (remoteId : H)
    (remoteKey : P.VerifyingKey) (heads : List (String × UInt64)) (now : Int64) :
    Store H → SyncSummary ε → List (String × UInt64) → Store H × Except StorageError (SyncSummary ε)
  | s, summary, [] => (s, .ok summary)
  | s, summary, (originHex, remoteSeq) :: rest =>
    match P.pullOrigin allows remote remoteId remoteKey heads now s summary originHex remoteSeq with
    | (s, .error e) => (s, .error e)
    | (s, .ok summary) => pullLoop allows remote remoteId remoteKey heads now s summary rest

/-- The identity that a hello claims, checked against its key. -/
def remoteIdentity (hello : HelloResponse) : Except SyncError (H × P.VerifyingKey) :=
  match P.peerIdFromStr hello.peerId with
  | .error e => .error (.peerId e)
  | .ok remoteId =>
    match (decodeKey32 hello.publicKey).bind P.keyFromBytes with
    | none => .error .invalidPublicKey
    | some key => if remoteId ≠ P.peerIdOfKey key then .error .invalidPublicKey else .ok (remoteId, key)

/-- One round of pulling from the peer at an address. -/
def syncWithPeer (svc : SyncService H) (address : String) (remote : Remote SyncClientError)
    (now : Int64) (s : Store H) : Store H × Except SyncError (SyncSummary SyncClientError) :=
  match remote.hello with
  | .error e => (s, .error (.client e))
  | .ok hello =>
    match P.remoteIdentity hello with
    | .error e => (s, .error e)
    | .ok (remoteId, key) =>
      let claimed := svc.mapOrder.order hello.heads
      match recordHello s remoteId key.bytes address (P.decodedHeads claimed) now with
      | (s, .error e) => (s, .error (.storage e))
      | (s, .ok ()) =>
        let s := P.discoverPeers svc remote now s
        let allows := fun s origin => svc.federationAllows s origin now
        match P.pullLoop allows remote remoteId key (P.localHeads s) now s {} claimed with
        | (s, .error e) => (s, .error (.storage e))
        | (s, .ok summary) => (s, .ok summary)

end Prims

end OpenAgentGraph
