/-
  Recording a transfer in the graph (`oag-api`: `transfer.rs`,
  `record_transfer`; `oag-graph`: `service.rs`, `sign_actor_key_proof`).

  The peer that serves content and the peer that fetches it each record it in
  their own graph: under the actor of their own key, as an assertion between
  the two peers with the receipt as its evidence.
-/
import OpenAgentGraph.Graph.Assert
import OpenAgentGraph.Graph.Writes
import OpenAgentGraph.Transfer.Service

namespace OpenAgentGraph

open Lib

variable {H : Type}

def sentToPredicate : String := "sent_to"

def PeerRole.asStr : PeerRole → String
  | .server => "server"
  | .client => "client"

namespace Prims

variable (P : Prims H)

def signActorKeyProof (identity : PeerIdentity) (actorType : ActorType) (name identityUri : Option String) :
    PublicKeyProof where
  publicKey := (identity.verifyingKey P).bytes
  signature := P.signWithDomain identity actorKeyProofDomain
    (P.jcs.write (actorKeyProofMessage actorType name identityUri))

/-- The identifier of a peer in the graph. -/
def peerIdentifier (peerId : H) : String := "peer:" ++ P.peerIdToString peerId

def transferInput (r : TransferRecord H) : AssertInput where
  subject := P.peerIdentifier r.serverPeerId
  subjectType := some "peer"
  predicate := sentToPredicate
  object := P.peerIdentifier r.clientPeerId
  objectType := some "peer"
  evidence := []
  actorConfidence := none
  observedAt := some r.servedAt
  extractionMethod := some r.extractionMethod

/-- `byte_size` is a `usize` of 64 bits. -/
def transferMetadata (r : TransferRecord H) : JsonValue :=
  .ofJson (.obj ([("protocol", .str "oag-transfer-v1"),
    ("byte_size", .num (.ofUInt64 (.ofNat r.byteSize))),
    ("peer_role", .str r.peerRole.asStr),
    ("counterparty_peer_id", .str (P.peerIdToString
      (if r.peerRole = .server then r.clientPeerId else r.serverPeerId))),
    ("client_nonce", .str r.clientNonceHex),
    ("server_nonce", .str r.serverNonceHex),
    ("receipt_hash", .str r.receiptHash)] ++
    r.relayedVia.toList.map fun via => ("relayed_via", .str (P.peerIdToString via))))

def transferEvidence (r : TransferRecord H) : EvidenceInput where
  evidenceType := some "service_receipt"
  contentHash := some r.contentHash
  observedAt := some r.servedAt
  pinnedCid := some r.cid
  metadata := some (P.transferMetadata r)

variable [DecidableEq H] {U ε : Type} (L : UrlLib U ε)

/-- Three calls of the graph service, each of which stays done when the next
    one fails.  `clock n` is the time when the service looks at the clock the
    `n`-th time. -/
def recordTransfer (s : Store H) (me : PeerIdentity) (r : TransferRecord H) (clock : ℕ → Int64) :
    Store H × Except (GraphError H) H :=
  match P.declareActor s me .peer none none (some (P.signActorKeyProof me .peer none none)) (clock 0) with
  | .error e => (s, .error e)
  | .ok (s, actorId) =>
    let auth : AuthContext H := ⟨actorId, [.graphAssert]⟩
    match P.assert L s me auth (P.transferInput r) (fun n => clock (n + 1)) with
    | (s, .error e) => (s, .error e)
    | (s, .ok assertionId) =>
      match P.addEvidence s me auth assertionId (P.transferEvidence r) (clock 2) with
      | .error e => (s, .error e)
      | .ok s => (s, .ok assertionId)

end Prims

end OpenAgentGraph
