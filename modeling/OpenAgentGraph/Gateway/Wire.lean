/-
  The messages of the internet gateway (`oag-api`: `gateway.rs`): services
  and results, and the requests and responses that peers sign.

  A signature is over the canonical JSON of the unsigned part; the signed
  message itself is passed on as a value.
-/
import OpenAgentGraph.Events.Payload

namespace OpenAgentGraph

open Lib Write

/-! ## Services, results, errors -/

inductive GatewayService
  | ntp
  | http (url : String)
  deriving DecidableEq, Repr

inductive GatewayResult
  | ntp (estimatedUnixTimeMs : Int64)
  | http (status : UInt16) (contentHash : String) (body : Bytes) (cacheControl : Option String)
  deriving DecidableEq

inductive ServedFrom
  | cache | quorum | origin | relay
  deriving DecidableEq, Repr

inductive GatewayError
  | peerId (e : Prims.PeerIdParseError)
  | invalidPublicKey
  | peerIdKeyMismatch
  | invalidNonce
  | badSignatureEncoding
  | badSignature
  | responseMismatch
  | clockSkew
  | rateLimited
  | noQuorum
  | upstreamBlocked (reason : String)
  | ntpUpstream (reason : String)
  | cannotResolve
  | internal (text : String)
  deriving DecidableEq, Repr

/-- The status of the response that reports an error. -/
def GatewayError.status : GatewayError → UInt16
  | peerId _ | invalidPublicKey | peerIdKeyMismatch | invalidNonce | badSignatureEncoding
  | badSignature | responseMismatch | clockSkew => 401
  | rateLimited => 429
  | noQuorum | cannotResolve | upstreamBlocked _ | ntpUpstream _ => 502
  | internal _ => 500

/-! ## Requests and responses -/

structure UnsignedGatewayRequest where
  service : GatewayService
  requesterPeerId : String
  requesterPublicKey : String
  nonce : String
  requestedAt : Int64
  hopsRemaining : UInt8
  path : List String

structure GatewayRequest where
  unsigned : UnsignedGatewayRequest
  signature : String

structure UnsignedGatewayResponse where
  result : GatewayResult
  responderPeerId : String
  responderPublicKey : String
  nonce : String
  resolvedAt : Int64
  servedFrom : ServedFrom

structure GatewayResponse where
  unsigned : UnsignedGatewayResponse
  signature : String

/-! ## Writing -/

def GatewayService.toJson : GatewayService → Json
  | ntp => .str "Ntp"
  | http url => .obj [("Http", .obj [("url", .str url)])]

def GatewayResult.toJson : GatewayResult → Json
  | ntp t => .obj [("Ntp", .obj [("estimated_unix_time_ms", i64 t)])]
  | http status contentHash body cacheControl =>
    .obj [("Http", .obj [("status", .num (.ofUInt16 status)), ("content_hash", .str contentHash),
      ("body", .arr (body.map fun b => .num (.ofUInt16 b.toUInt16))),
      ("cache_control", optStr cacheControl)])]

def ServedFrom.toJson : ServedFrom → Json
  | cache => .str "Cache"
  | quorum => .str "Quorum"
  | origin => .str "Origin"
  | relay => .str "Relay"

def UnsignedGatewayRequest.toJson (r : UnsignedGatewayRequest) : Json :=
  .obj [("service", r.service.toJson), ("requester_peer_id", .str r.requesterPeerId),
    ("requester_public_key", .str r.requesterPublicKey), ("nonce", .str r.nonce),
    ("requested_at", i64 r.requestedAt), ("hops_remaining", .num (.ofUInt16 r.hopsRemaining.toUInt16)),
    ("path", .arr (r.path.map .str))]

def UnsignedGatewayResponse.toJson (r : UnsignedGatewayResponse) : Json :=
  .obj [("result", r.result.toJson), ("responder_peer_id", .str r.responderPeerId),
    ("responder_public_key", .str r.responderPublicKey), ("nonce", .str r.nonce),
    ("resolved_at", i64 r.resolvedAt), ("served_from", r.servedFrom.toJson)]

/-! ## Signing and verifying -/

def gatewayRequestDomain : String := "OAG:GATEWAY_REQUEST:v1:"
def gatewayResponseDomain : String := "OAG:GATEWAY_RESPONSE:v1:"

def maxClockSkewSeconds : Int64 := 300

/-- `decode_32` and `decode_64`: hexadecimal text of exactly `n` bytes. -/
def decodeExact (n : ℕ) (text : String) : Option Bytes :=
  match hexDecode text with
  | .ok b => if b.length = n then some b else none
  | .error _ => none

/-- The difference of two times in wrapping `i64` arithmetic, as `(a - b).abs()`. -/
def absDiff (a b : Int64) : Int64 := (a - b).abs

variable {H : Type}

namespace Prims

variable (P : Prims H)

def buildAndSignGatewayRequest (identity : PeerIdentity) (service : GatewayService) (nonce : Bytes)
    (requestedAt : Int64) (hopsRemaining : UInt8) (path : List String) : GatewayRequest :=
  let unsigned : UnsignedGatewayRequest := {
    service := service
    requesterPeerId := P.peerIdToString (identity.peerId P)
    requesterPublicKey := hexEncode (identity.verifyingKey P).bytes
    nonce := hexEncode nonce
    requestedAt := requestedAt
    hopsRemaining := hopsRemaining
    path := path }
  { unsigned := unsigned
    signature := hexEncode
      (P.signWithDomain identity gatewayRequestDomain (P.jcs.write unsigned.toJson)) }

def buildAndSignGatewayResponse (identity : PeerIdentity) (result : GatewayResult) (nonce : Bytes)
    (resolvedAt : Int64) (servedFrom : ServedFrom) : GatewayResponse :=
  let unsigned : UnsignedGatewayResponse := {
    result := result
    responderPeerId := P.peerIdToString (identity.peerId P)
    responderPublicKey := hexEncode (identity.verifyingKey P).bytes
    nonce := hexEncode nonce
    resolvedAt := resolvedAt
    servedFrom := servedFrom }
  { unsigned := unsigned
    signature := hexEncode
      (P.signWithDomain identity gatewayResponseDomain (P.jcs.write unsigned.toJson)) }

variable [DecidableEq H]

/-- The checks that requests and responses share: the peer id is that of the
    public key, the key signed the message, and the time is near. -/
def verifySigned (domain : String) (peerIdText publicKeyText : String) (message : Bytes)
    (signatureText : String) (time now : Int64) : Except GatewayError H := do
  let peerId ← (P.peerIdFromStr peerIdText).mapError .peerId
  let bytes ← (decodeExact 32 publicKeyText).elim (.error .invalidPublicKey) .ok
  let key ← (P.keyFromBytes bytes).elim (.error .invalidPublicKey) .ok
  if peerId ≠ P.peerIdOfKey key then .error .peerIdKeyMismatch
  else
    let signature ← (decodeExact 64 signatureText).elim (.error .badSignatureEncoding) .ok
    if !P.verifyWithDomain key domain message signature then .error .badSignature
    else if absDiff time now > maxClockSkewSeconds then .error .clockSkew
    else .ok peerId

/-- The peer that signed a request, and the request's nonce. -/
def verifyGatewayRequest (req : GatewayRequest) (now : Int64) : Except GatewayError (H × Bytes) := do
  let peerId ← P.verifySigned gatewayRequestDomain req.unsigned.requesterPeerId
    req.unsigned.requesterPublicKey (P.jcs.write req.unsigned.toJson) req.signature
    req.unsigned.requestedAt now
  let nonce ← (decodeExact 32 req.unsigned.nonce).elim (.error .invalidNonce) .ok
  return (peerId, nonce)

/-- The peer that signed a response to the expected nonce. -/
def verifyGatewayResponse (resp : GatewayResponse) (expectedNonce : Bytes) (now : Int64) :
    Except GatewayError H :=
  if decodeExact 32 resp.unsigned.nonce ≠ some expectedNonce then .error .responseMismatch
  else P.verifySigned gatewayResponseDomain resp.unsigned.responderPeerId
    resp.unsigned.responderPublicKey (P.jcs.write resp.unsigned.toJson) resp.signature
    resp.unsigned.resolvedAt now

end Prims

end OpenAgentGraph
