/-
  The messages of a transfer (`oag-api`: `transfer.rs`): the request for
  pinned content that a peer signs as client, and the receipt that the peer
  that serves it signs.

  The receipt travels in a header of the response; as for the gateway, the
  signed messages are passed on as values.
-/
import OpenAgentGraph.Gateway.Wire

namespace OpenAgentGraph

open Lib Write

/-! ## Requests, receipts, errors -/

structure UnsignedTransferRequest where
  cid : String
  clientPeerId : String
  clientPublicKey : String
  clientNonce : String
  requestedAt : Int64
  relayHopsRemaining : UInt8
  relayPath : List String

structure TransferRequest where
  unsigned : UnsignedTransferRequest
  signature : String

structure UnsignedTransferReceipt where
  cid : String
  serverPeerId : String
  serverPublicKey : String
  clientNonce : String
  serverNonce : String
  contentHash : String
  receiptHash : String
  servedAt : Int64

structure TransferReceipt where
  unsigned : UnsignedTransferReceipt
  serverSignature : String

/-- What a successful response carries. -/
structure TransferResponse where
  receipt : TransferReceipt
  content : Bytes

inductive IpfsError
  | disabled
  | http (e : String)
  | emptyResponse
  | embedded (e : String)
  deriving DecidableEq, Repr

inductive TransferError
  | peerId (e : Prims.PeerIdParseError)
  | invalidPublicKey
  | peerIdKeyMismatch
  | invalidNonce
  | badSignatureEncoding
  | badSignature
  | receiptMismatch
  | clockSkew
  | providerDisabled
  | ipfs (e : IpfsError)
  | rateLimited
  | graph (e : String)
  | internal (text : String)
  | relayFailed
  deriving DecidableEq, Repr

/-- The status of the response that reports an error. -/
def TransferError.status : TransferError → UInt16
  | peerId _ | invalidPublicKey | peerIdKeyMismatch | invalidNonce | badSignatureEncoding
  | badSignature | receiptMismatch | clockSkew => 401
  | providerDisabled => 503
  | ipfs _ => 404
  | relayFailed => 502
  | rateLimited => 429
  | graph _ | internal _ => 500

/-! ## Writing -/

def UnsignedTransferRequest.toJson (r : UnsignedTransferRequest) : Json :=
  .obj [("cid", .str r.cid), ("client_peer_id", .str r.clientPeerId),
    ("client_public_key", .str r.clientPublicKey), ("client_nonce", .str r.clientNonce),
    ("requested_at", i64 r.requestedAt),
    ("relay_hops_remaining", .num (.ofUInt16 r.relayHopsRemaining.toUInt16)),
    ("relay_path", .arr (r.relayPath.map .str))]

/-- The members of an unsigned receipt. -/
def UnsignedTransferReceipt.members (r : UnsignedTransferReceipt) : List (String × Json) :=
  [("cid", .str r.cid), ("server_peer_id", .str r.serverPeerId),
    ("server_public_key", .str r.serverPublicKey), ("client_nonce", .str r.clientNonce),
    ("server_nonce", .str r.serverNonce), ("content_hash", .str r.contentHash),
    ("receipt_hash", .str r.receiptHash), ("served_at", i64 r.servedAt)]

/-- The unsigned part is flattened into the receipt. -/
def TransferReceipt.toJson (r : TransferReceipt) : Json :=
  .obj (r.unsigned.members ++ [("server_signature", .str r.serverSignature)])

/-- `HeaderValue::from_str` takes tabs and visible ASCII only. -/
def headerValue (text : Bytes) : Bool := text.all fun x => x = 9 || (32 ≤ x && x < 127)

/-! ## Signing and verifying -/

def transferRequestDomain : String := "OAG:TRANSFER_REQUEST:v1:"
def transferReceiptDomain : String := "OAG:TRANSFER_RECEIPT:v1:"

variable {H : Type}

namespace Prims

variable (P : Prims H)

def blake3ContentHash (bytes : Bytes) : String := "blake3:" ++ P.toHex (P.blake3 bytes)

/-- The hash that binds the randomness of both sides to the content. -/
def mutualReceiptHash (clientNonce serverNonce : Bytes) (contentHash : String) : String :=
  P.blake3ContentHash (utf8 "OAG:RECEIPT:v1:" ++ clientNonce ++ serverNonce ++ utf8 contentHash)

def buildAndSignRequest (identity : PeerIdentity) (cid : String) (clientNonce : Bytes)
    (requestedAt : Int64) (relayHopsRemaining : UInt8) (relayPath : List String) : TransferRequest :=
  let unsigned : UnsignedTransferRequest := {
    cid := cid
    clientPeerId := P.peerIdToString (identity.peerId P)
    clientPublicKey := hexEncode (identity.verifyingKey P).bytes
    clientNonce := hexEncode clientNonce
    requestedAt := requestedAt
    relayHopsRemaining := relayHopsRemaining
    relayPath := relayPath }
  { unsigned := unsigned
    signature := hexEncode
      (P.signWithDomain identity transferRequestDomain (P.jcs.write unsigned.toJson)) }

def buildAndSignReceipt (identity : PeerIdentity) (cid : String) (clientNonce serverNonce : Bytes)
    (contentHash : String) (servedAt : Int64) : TransferReceipt :=
  let unsigned : UnsignedTransferReceipt := {
    cid := cid
    serverPeerId := P.peerIdToString (identity.peerId P)
    serverPublicKey := hexEncode (identity.verifyingKey P).bytes
    clientNonce := hexEncode clientNonce
    serverNonce := hexEncode serverNonce
    contentHash := contentHash
    receiptHash := P.mutualReceiptHash clientNonce serverNonce contentHash
    servedAt := servedAt }
  { unsigned := unsigned
    serverSignature := hexEncode
      (P.signWithDomain identity transferReceiptDomain (P.jcs.write (.obj unsigned.members))) }

variable [DecidableEq H]

/-- The checks that requests and receipts share. -/
def verifyTransfer (domain peerIdText publicKeyText : String) (message : Bytes)
    (signatureText : String) (time now : Int64) : Except TransferError H := do
  let peerId ← (P.peerIdFromStr peerIdText).mapError .peerId
  let bytes ← (decodeExact 32 publicKeyText).elim (.error .invalidPublicKey) .ok
  let key ← (P.keyFromBytes bytes).elim (.error .invalidPublicKey) .ok
  if peerId ≠ P.peerIdOfKey key then .error .peerIdKeyMismatch
  else
    let signature ← (decodeExact 64 signatureText).elim (.error .badSignatureEncoding) .ok
    if !P.verifyWithDomain key domain message signature then .error .badSignature
    else if absDiff time now > maxClockSkewSeconds then .error .clockSkew
    else .ok peerId

/-- The client that signed a request, and its nonce. -/
def verifyRequest (req : TransferRequest) (now : Int64) : Except TransferError (H × Bytes) := do
  let peerId ← P.verifyTransfer transferRequestDomain req.unsigned.clientPeerId
    req.unsigned.clientPublicKey (P.jcs.write req.unsigned.toJson) req.signature
    req.unsigned.requestedAt now
  let clientNonce ← (decodeExact 32 req.unsigned.clientNonce).elim (.error .invalidNonce) .ok
  return (peerId, clientNonce)

/-- The server that signed the receipt of this exchange. -/
def verifyReceipt (receipt : TransferReceipt) (expectedCid : String) (expectedClientNonce : Bytes)
    (now : Int64) : Except TransferError H := do
  if receipt.unsigned.cid ≠ expectedCid then .error .receiptMismatch
  else if decodeExact 32 receipt.unsigned.clientNonce ≠ some expectedClientNonce then
    .error .receiptMismatch
  else
    let peerId ← P.verifyTransfer transferReceiptDomain receipt.unsigned.serverPeerId
      receipt.unsigned.serverPublicKey (P.jcs.write (.obj receipt.unsigned.members))
      receipt.serverSignature receipt.unsigned.servedAt now
    let serverNonce ← (decodeExact 32 receipt.unsigned.serverNonce).elim (.error .invalidNonce) .ok
    if P.mutualReceiptHash expectedClientNonce serverNonce receipt.unsigned.contentHash
        ≠ receipt.unsigned.receiptHash then .error .receiptMismatch
    else return peerId

end Prims

end OpenAgentGraph
