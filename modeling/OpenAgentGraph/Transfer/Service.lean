/-
  Fetching pinned content from another peer, and relaying what is not pinned
  here (`oag-api`: `transfer.rs`).

  A peer that is asked for content it does not have asks its relay peers in
  turn, as a client of its own: with one hop less and itself on the path.  The
  code runs against a `TransferHost`, and only a request to another peer may
  never return; `serve` is cut off at a depth of nested requests.
-/
import OpenAgentGraph.Gateway.Service
import OpenAgentGraph.Transfer.Wire

namespace OpenAgentGraph

open Lib

variable {H : Type}

/-- The part of `AppState` that a transfer reads. -/
structure TransferState (H : Type) where
  identity : Prims.PeerIdentity
  relayPeers : List (RelayPeer H)

inductive PeerRole
  | server
  | client
  deriving DecidableEq, Repr

/-- What `record_transfer` writes into the graph of the local peer. -/
structure TransferRecord (H : Type) where
  serverPeerId : H
  clientPeerId : H
  cid : String
  byteSize : ℕ
  clientNonceHex : String
  serverNonceHex : String
  contentHash : String
  receiptHash : String
  peerRole : PeerRole
  servedAt : Int64
  extractionMethod : ExtractionMethod
  relayedVia : Option H

/-- What the transfers of one peer run on. -/
structure TransferHost (H Ω : Type) where
  nowUnix : Ω → Int64 × Ω
  randomBytes32 : Ω → Bytes × Ω
  length_randomBytes32 : ∀ ω, (randomBytes32 ω).1.length = 32
  rateLimiterCheck : String → Ω → Bool × Ω
  /-- `pinning_provider`, if one is configured. -/
  fetch : Option (String → Ω → Except IpfsError Bytes × Ω)
  recordTransfer : TransferRecord H → Ω → Except String Unit × Ω

/-- Sends a request to a URL. -/
abbrev TransferPost (Ω : Type) := String → TransferRequest → Io Ω (Except PostError TransferResponse)

def fetchUrl (peer : RelayPeer H) : String :=
  trimEndSlashes peer.address ++ "/oag/transfer/v1/fetch"

/-- The text of the error of a failed request. -/
def relayErrorText (peer : RelayPeer H) : PostError → String
  | .failed e => "relay request to " ++ peer.address ++ " failed: " ++ e
  | .answered status => "relay request to " ++ peer.address ++ " answered " ++ toString status
  | .json e => e

structure VerifiedFetch (H : Type) where
  content : Bytes
  contentHash : String
  receiptHash : String
  serverPeerId : H

namespace Prims

variable (P : Prims H) [DecidableEq H] {Ω : Type} (host : TransferHost H Ω) (post : TransferPost Ω)
  (s : TransferState H)

def fetchAndVerify (peer : RelayPeer H) (cid : String) (relayHopsRemaining : UInt8)
    (relayPath : List String) : Io Ω (Except TransferError (VerifiedFetch H)) := do
  let clientNonce ← Io.of host.randomBytes32
  let requestedAt ← Io.of host.nowUnix
  let request :=
    P.buildAndSignRequest s.identity cid clientNonce requestedAt relayHopsRemaining relayPath
  match ← post (fetchUrl peer) request with
  | .error e => return .error (.internal (relayErrorText peer e))
  | .ok response =>
    let receipt := response.receipt
    let contentHash := P.blake3ContentHash response.content
    if contentHash ≠ receipt.unsigned.contentHash then return .error .receiptMismatch
    else
      let now ← Io.of host.nowUnix
      match P.verifyReceipt receipt cid clientNonce now with
      | .error e => return .error e
      | .ok serverPeerId =>
        if serverPeerId ≠ peer.peerId then return .error .peerIdKeyMismatch
        else
          match ← Io.of (host.recordTransfer {
              serverPeerId := serverPeerId
              clientPeerId := s.identity.peerId P
              cid := cid
              byteSize := response.content.length
              clientNonceHex := hexEncode clientNonce
              serverNonceHex := receipt.unsigned.serverNonce
              contentHash := contentHash
              receiptHash := receipt.unsigned.receiptHash
              peerRole := .client
              servedAt := receipt.unsigned.servedAt
              extractionMethod := .verification
              relayedVia := none }) with
          | .error e => return .error (.graph e)
          | .ok () =>
            return .ok ⟨response.content, contentHash, receipt.unsigned.receiptHash, serverPeerId⟩

/-- The relay peers in turn: those already on the path are passed over, and
    the first success wins. -/
def relayFetchLoop (cid : String) (relayHopsRemaining : UInt8) (nextPath : List String) :
    List (RelayPeer H) → Io Ω (Option (VerifiedFetch H))
  | [] => return none
  | peer :: peers =>
    if P.peerIdToString peer.peerId ∈ nextPath then relayFetchLoop cid relayHopsRemaining nextPath peers
    else do
      match ← P.fetchAndVerify host post s peer cid (relayHopsRemaining - 1) nextPath with
      | .ok verified => return some verified
      | .error _ => relayFetchLoop cid relayHopsRemaining nextPath peers

def relayFetch (req : TransferRequest) : Io Ω (Option (VerifiedFetch H)) :=
  if req.unsigned.relayHopsRemaining = 0 ∨ s.relayPeers = [] then return none
  else P.relayFetchLoop host post s req.unsigned.cid req.unsigned.relayHopsRemaining
    (req.unsigned.relayPath ++ [P.peerIdToString (s.identity.peerId P)]) s.relayPeers

/-- The content, from the own pin or from a relay peer, and that peer. -/
def localOrRelay (fetch : String → Ω → Except IpfsError Bytes × Ω) (req : TransferRequest) :
    Io Ω (Except TransferError (Bytes × Option H)) := do
  match ← Io.of (fetch req.unsigned.cid) with
  | .ok bytes => return .ok (bytes, none)
  | .error .disabled => return .error .providerDisabled
  | .error localErr =>
    match ← P.relayFetch host post s req with
    | some verified => return .ok (verified.content, some verified.serverPeerId)
    | none =>
      if s.relayPeers = [] ∨ req.unsigned.relayHopsRemaining = 0 then return .error (.ipfs localErr)
      else return .error .relayFailed

/-- `POST /oag/transfer/v1/fetch`. -/
def fetchWithReceiptInner (req : TransferRequest) : Io Ω (Except TransferError TransferResponse) := do
  let now ← Io.of host.nowUnix
  match P.verifyRequest req now with
  | .error e => return .error e
  | .ok (clientPeerId, clientNonce) =>
    if ← Io.of (host.rateLimiterCheck (P.peerIdToString clientPeerId)) then
      match host.fetch with
      | none => return .error .providerDisabled
      | some fetch =>
        match ← P.localOrRelay host post s fetch req with
        | .error e => return .error e
        | .ok (content, relayedVia) =>
          let contentHash := P.blake3ContentHash content
          let serverNonce ← Io.of host.randomBytes32
          let receipt := P.buildAndSignReceipt s.identity req.unsigned.cid clientNonce serverNonce
            contentHash now
          match ← Io.of (host.recordTransfer {
              serverPeerId := s.identity.peerId P
              clientPeerId := clientPeerId
              cid := req.unsigned.cid
              byteSize := content.length
              clientNonceHex := req.unsigned.clientNonce
              serverNonceHex := hexEncode serverNonce
              contentHash := contentHash
              receiptHash := receipt.unsigned.receiptHash
              peerRole := .server
              servedAt := receipt.unsigned.servedAt
              extractionMethod := .direct
              relayedVia := relayedVia }) with
          | .error e => return .error (.graph e)
          | .ok () =>
            if headerValue (P.toVec.write receipt.toJson) then return .ok ⟨receipt, content⟩
            else return .error (.internal "failed to parse header value")
    else return .error .rateLimited

end Prims

/-! ## Peers that fetch from each other -/

structure TransferNetwork (H : Type) where
  size : ℕ
  peer : Fin size → TransferState H
  /-- The peer that answers at a URL. -/
  route : String → Option (Fin size)

namespace TransferNetwork

variable (net : TransferNetwork H) {Ω : Type}

/-- A request to a URL of the network, and the response or its error status. -/
def post (serve : Fin net.size → TransferRequest → Io Ω (Except TransferError TransferResponse)) :
    TransferPost Ω :=
  fun url req =>
    match net.route url with
    | none => return .error (.failed "unreachable")
    | some i => do
      match ← serve i req with
      | .ok resp => return .ok resp
      | .error e => return .error (.answered e.status)

variable (P : Prims H) [DecidableEq H] (hosts : Fin net.size → TransferHost H Ω)

/-- How a peer answers a request, with at most `depth` requests nested. -/
def serve : ℕ → Fin net.size → TransferRequest → Io Ω (Except TransferError TransferResponse)
  | 0, _, _ => fun _ => none
  | depth + 1, i, req =>
    P.fetchWithReceiptInner (hosts i) (net.post (serve depth)) (net.peer i) req

end TransferNetwork

end OpenAgentGraph
