/-
  What a peer answers on a Reticulum link (`oag-reticulum`: `handlers.rs`, and
  the rate limit of `listener.rs`).

  The handlers repeat those of `Sync.Service`; that of a range of events does
  not ask for `from <= to`.
-/
import OpenAgentGraph.Reticulum.Wire
import OpenAgentGraph.Sync.Service

namespace OpenAgentGraph

open Lib Repo

variable {H : Type}

/-- The texts of the errors of the database and of the deserializer. -/
structure LibraryTexts where
  sqlx : SqlxError → String
  serde : SerdeError → String

/-- `StorageError::to_string`. -/
def StorageError.text (t : LibraryTexts) : StorageError → String
  | sqlx e => t.sqlx e
  | badIdLength n => "corrupt id column: expected 32 bytes, got " ++ toString n
  | badMetadata e => "corrupt metadata JSON: " ++ t.serde e
  | notFound => "row not found"

namespace Prims

variable (P : Prims H) [DecidableEq H]

namespace Reticulum

def handleEvents (s : Store H) (originHex : String) (lo hi : UInt64) :
    Except StorageError (List SignedEvent) :=
  match P.decodeHex32 originHex with
  | none => .error (.badIdLength originHex.utf8ByteSize)
  | some origin =>
    let rows := listRange s.events origin lo.toInt64 (pageEnd lo.toInt64 hi.toInt64)
    match rows.mapM fun row => P.signedFromSlice row.canonicalPayload with
    | .ok events => .ok events
    | .error e => .error (.badMetadata e)

def handlePeers (s : Store H) : Except StorageError (List PeerRecord) := do
  let infos ← listPeers s.peers
  return infos.map fun info =>
    { peerId := P.peerIdToString info.peerId
      publicKey := hexEncode info.publicKey
      addresses := listAddresses s.peerAddresses info.peerId
      lastSeen := info.lastSeen }

def handleRequest (t : LibraryTexts) (selfPeerId : H) (selfPublicKey : Bytes) (s : Store H) :
    RnRequest → RnResponse
  | .hello => .hello {
      protocol := syncProtocol
      version := syncVersion
      peerId := P.peerIdToString selfPeerId
      publicKey := hexEncode selfPublicKey
      heads := P.localHeads s }
  | .events originHex lo hi =>
    match handleEvents P s originHex lo hi with
    | .ok events => .events events
    | .error e => .error (e.text t)
  | .peers =>
    match handlePeers P s with
    | .ok peers => .peers peers
    | .error e => .error (e.text t)

/-- `rate_limited_handle_request`; `allowed` is what the rate limiter says. -/
def rateLimitedHandleRequest (t : LibraryTexts) (selfPeerId : H) (selfPublicKey : Bytes)
    (s : Store H) (allowed : Bool) (request : RnRequest) : RnResponse :=
  if allowed then handleRequest P t selfPeerId selfPublicKey s request
  else .error "rate limit exceeded"

end Reticulum

end Prims

end OpenAgentGraph
