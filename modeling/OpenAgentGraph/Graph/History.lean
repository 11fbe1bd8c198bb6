/-
  Explanations (`oag-graph`: `history.rs`, `provenance.rs`): the events that
  touched an object, and where an event comes from.

  Both read the signed bytes of the log again, next to the tables that the
  projector wrote.
-/
import OpenAgentGraph.Graph.Service
import OpenAgentGraph.Lib.OrderBy

namespace OpenAgentGraph

open Lib Repo

variable {H : Type}

/-- The column `ref_type`. -/
def RefType.asStr : RefType → String
  | assertion => "assertion"
  | edge => "edge"
  | node => "node"

structure HistoryEntry (H : Type) where
  eventId : H
  eventType : String
  createdAt : Int64
  payload : Json

/-- `VALID_OBJECT_TYPES` -/
def validObjectTypes : List String := ["node", "edge", "assertion"]

structure EventProvenance (H : Type) where
  eventId : H
  originPeer : String
  eventType : String
  createdAt : Int64
  signatureValid : Bool
  originKeyKnown : Bool
  deriving DecidableEq

namespace Prims

variable (P : Prims H)

/-! ## History -/

/-- Where a row stands in `ORDER BY origin_peer_id, sequence`: blobs are
    compared byte by byte. -/
def historyKey (row : EventRow H) : List ℕ ×ₗ ℤ :=
  toLex ((P.digestBytes row.originPeerId).map UInt8.toNat, row.sequence.toInt)

section
variable [DecidableEq H]

/-- The events joined with their references to the object. -/
def historyFor (s : Store H) (refType : String) (refId : H) : List (EventRow H) :=
  let joined := s.events.flatMap fun row => (s.proj.eventRefs.filter fun ref =>
    decide (ref.eventId = row.eventId) && decide (ref.refType.asStr = refType) &&
      decide (ref.refId = refId)).map fun _ => row
  joined.mergeSort (OrderBy.leBy P.historyKey)

end

def historyEntry (row : EventRow H) : Except (GraphError H) (HistoryEntry H) := do
  let payload ← GraphError.lift .events (orElse .canonicalize (P.fromSlice row.canonicalPayload))
  return ⟨row.eventId, row.eventType, row.createdAt, payload⟩

variable [DecidableEq H]

def getHistory (s : Store H) (objectType id : String) :
    Except (GraphError H) (List (HistoryEntry H)) :=
  if objectType ∉ validObjectTypes then
    .error (.invalidInput ("unknown object_type '" ++ objectType ++
      "', expected one of [\"node\", \"edge\", \"assertion\"]"))
  else
    match P.hashFromStr id with
    | .error _ => .error (.invalidInput ("invalid id '" ++ id ++ "'"))
    | .ok hash => (P.historyFor s objectType hash).mapM P.historyEntry

/-! ## Provenance -/

/-- The key of an origin: this peer's own, or the one in its row. -/
def provenanceKey (s : Store H) (identity : PeerIdentity) (originPeer : H) :
    Except (GraphError H) (Option P.VerifyingKey) := do
  if originPeer = identity.peerId P then return some (identity.verifyingKey P)
  match ← GraphError.lift .storage (getPeer s.peers originPeer) with
  | none => return none
  | some info =>
    match P.keyFromBytes info.publicKey with
    | some key => return some key
    | none => throw (.invalidInput ("stored public key for " ++ P.peerIdToString originPeer ++
        " is invalid"))

/-- `signature_valid` and `origin_key_known`: the signature is verified again. -/
def signatureFlags (signed : SignedEvent) (eventId : H) : Option P.VerifyingKey → Bool × Bool
  | none => (false, false)
  | some key =>
    match P.verifyAndDeriveId signed key with
    | .ok derived => (decide (derived = eventId), true)
    | .error _ => (false, true)

/-- `none` if the peer does not have the event. -/
def getEventProvenance (s : Store H) (identity : PeerIdentity) (eventId : H) :
    Except (GraphError H) (Option (EventProvenance H)) :=
  match Table.find EventRow.eventId eventId s.events with
  | none => .ok none
  | some row => do
    let signed ← GraphError.lift .events (orElse .canonicalize (P.signedFromSlice row.canonicalPayload))
    match P.peerIdFromStr signed.unsigned.originPeer with
    | .error _ => throw (.invalidInput ("stored event " ++ P.toHex eventId ++
        " has an unparseable origin_peer"))
    | .ok originPeer =>
      let verifyingKey ← P.provenanceKey s identity originPeer
      let (signatureValid, originKeyKnown) := P.signatureFlags signed eventId verifyingKey
      return some ⟨eventId, P.peerIdToString originPeer, row.eventType, row.createdAt, signatureValid,
        originKeyKnown⟩

end Prims

end OpenAgentGraph
