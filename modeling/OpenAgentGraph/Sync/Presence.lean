/-
  Presence heartbeats and cluster declarations (`oag-sync`: `presence.rs`,
  `cluster.rs`, and their handlers in `server.rs`; `oag-storage`:
  `peer_presence.rs`, `peer_cluster.rs`).

  Both are statements that a peer signs about itself.  Each verifier has its
  own copy of the checks; they are `verifyStatement`, with the copy's domain.
-/
import OpenAgentGraph.Gateway.Wire
import OpenAgentGraph.Sync.Service
import OpenAgentGraph.Sync.Trust

namespace OpenAgentGraph

open Lib Repo Write

/-! ## Statements -/

inductive PresenceStatus
  | online
  | goingOffline
  deriving DecidableEq, Repr

def PresenceStatus.asStr : PresenceStatus → String
  | online => "online"
  | goingOffline => "going_offline"

structure UnsignedPresenceHeartbeat where
  peerId : String
  publicKey : String
  status : PresenceStatus
  sessionStartedAt : Int64
  timestamp : Int64

structure PresenceHeartbeat where
  unsigned : UnsignedPresenceHeartbeat
  signature : String

structure UnsignedClusterDeclaration where
  peerId : String
  publicKey : String
  cluster : String
  timestamp : Int64

structure ClusterDeclaration where
  unsigned : UnsignedClusterDeclaration
  signature : String

/-- `PresenceError` and `ClusterError`. -/
inductive StatementError
  | peerId (e : Prims.PeerIdParseError)
  | invalidPublicKey
  | peerIdKeyMismatch
  | badSignatureEncoding
  | badSignature
  | clockSkew
  deriving DecidableEq, Repr

def UnsignedPresenceHeartbeat.toJson (u : UnsignedPresenceHeartbeat) : Json :=
  .obj [("peer_id", .str u.peerId), ("public_key", .str u.publicKey),
    ("status", .str u.status.asStr), ("session_started_at", i64 u.sessionStartedAt),
    ("timestamp", i64 u.timestamp)]

def UnsignedClusterDeclaration.toJson (u : UnsignedClusterDeclaration) : Json :=
  .obj [("peer_id", .str u.peerId), ("public_key", .str u.publicKey), ("cluster", .str u.cluster),
    ("timestamp", i64 u.timestamp)]

/-! ## Signing and verifying -/

def presenceDomain : String := "OAG:PRESENCE:v1:"
def clusterDomain : String := "OAG:CLUSTER:v1:"

variable {H : Type}

namespace Prims

variable (P : Prims H)

def buildAndSignPresence (identity : PeerIdentity) (status : PresenceStatus)
    (sessionStartedAt timestamp : Int64) : PresenceHeartbeat :=
  let unsigned : UnsignedPresenceHeartbeat := {
    peerId := P.peerIdToString (identity.peerId P)
    publicKey := hexEncode (identity.verifyingKey P).bytes
    status := status
    sessionStartedAt := sessionStartedAt
    timestamp := timestamp }
  { unsigned := unsigned
    signature := hexEncode (P.signWithDomain identity presenceDomain (P.jcs.write unsigned.toJson)) }

def buildAndSignCluster (identity : PeerIdentity) (cluster : String) (timestamp : Int64) :
    ClusterDeclaration :=
  let unsigned : UnsignedClusterDeclaration := {
    peerId := P.peerIdToString (identity.peerId P)
    publicKey := hexEncode (identity.verifyingKey P).bytes
    cluster := cluster
    timestamp := timestamp }
  { unsigned := unsigned
    signature := hexEncode (P.signWithDomain identity clusterDomain (P.jcs.write unsigned.toJson)) }

variable [DecidableEq H]

/-- The peer id is that of the public key, the key signed the message, and the
    time is near. -/
def verifyStatement (domain peerIdText publicKeyText : String) (message : Bytes)
    (signatureText : String) (time now : Int64) : Except StatementError H := do
  let peerId ← (P.peerIdFromStr peerIdText).mapError .peerId
  let bytes ← (decodeExact 32 publicKeyText).elim (.error .invalidPublicKey) .ok
  let key ← (P.keyFromBytes bytes).elim (.error .invalidPublicKey) .ok
  if peerId ≠ P.peerIdOfKey key then .error .peerIdKeyMismatch
  else
    let signature ← (decodeExact 64 signatureText).elim (.error .badSignatureEncoding) .ok
    if !P.verifyWithDomain key domain message signature then .error .badSignature
    else if absDiff time now > maxClockSkewSeconds then .error .clockSkew
    else .ok peerId

/-- `presence::verify`. -/
def verifyPresence (heartbeat : PresenceHeartbeat) (now : Int64) : Except StatementError H :=
  P.verifyStatement presenceDomain heartbeat.unsigned.peerId heartbeat.unsigned.publicKey
    (P.jcs.write heartbeat.unsigned.toJson) heartbeat.signature heartbeat.unsigned.timestamp now

/-- `cluster::verify`. -/
def verifyCluster (declaration : ClusterDeclaration) (now : Int64) : Except StatementError H :=
  P.verifyStatement clusterDomain declaration.unsigned.peerId declaration.unsigned.publicKey
    (P.jcs.write declaration.unsigned.toJson) declaration.signature declaration.unsigned.timestamp now

end Prims

/-! ## Recording -/

section record

variable [DecidableEq H]

/-- The first heartbeat of a peer sets the start of its session; later ones do not. -/
def recordHeartbeat (t : List (PeerPresenceRow H)) (peerId : H) (sessionStartedAt heartbeatAt : Int64)
    (status : String) : List (PeerPresenceRow H) :=
  Table.upsert PeerPresenceRow.peerId ⟨peerId, sessionStartedAt, heartbeatAt, status⟩
    (fun r => { r with lastHeartbeatAt := heartbeatAt, status := status }) t

def recordGoingOffline (t : List (AddressGoingOfflineRow H)) (address : String) (fromPeerId : H)
    (announcedAt : Int64) : List (AddressGoingOfflineRow H) :=
  Table.upsert AddressGoingOfflineRow.address ⟨address, announcedAt, fromPeerId⟩
    (fun r => { r with announcedAt := announcedAt, fromPeerId := fromPeerId }) t

/-- `peer_cluster::upsert`. -/
def upsertCluster (t : List (PeerClusterClaimRow H)) (peerId : H) (cluster : String)
    (declaredAt : Int64) : List (PeerClusterClaimRow H) :=
  Table.upsert PeerClusterClaimRow.peerId ⟨peerId, cluster, declaredAt⟩
    (fun r => { r with cluster := cluster, declaredAt := declaredAt }) t

namespace Prims

variable (P : Prims H)

/-- `POST /oag/sync/v1/presence`. -/
def postPresence (s : Store H) (presence : Presence H) (heartbeat : PresenceHeartbeat) (now : Int64) :
    Except StatusCode (Presence H) :=
  match P.verifyPresence heartbeat now with
  | .error _ => .error .badRequest
  | .ok peerId =>
    let u := heartbeat.unsigned
    let peerPresence := recordHeartbeat presence.peerPresence peerId u.sessionStartedAt u.timestamp
      u.status.asStr
    .ok {
      peerPresence := peerPresence
      addressGoingOffline :=
        match u.status with
        | .online => presence.addressGoingOffline
        | .goingOffline => (listAddresses s.peerAddresses peerId).foldl
            (fun t address => recordGoingOffline t address peerId now) presence.addressGoingOffline }

/-- `POST /oag/sync/v1/cluster`. -/
def postCluster (s : Store H) (declaration : ClusterDeclaration) (now : Int64) :
    Except StatusCode (Store H) :=
  match P.verifyCluster declaration now with
  | .error _ => .error .badRequest
  | .ok peerId => .ok { s with
      peerClusterClaims := upsertCluster s.peerClusterClaims peerId declaration.unsigned.cluster now }

end Prims

end record

end OpenAgentGraph
