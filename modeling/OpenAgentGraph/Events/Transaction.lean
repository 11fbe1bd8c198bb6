/-
  `ingest_remote_event` statement by statement: where its transaction begins,
  which statements it runs, and where it commits.

  `Prims.ingestRemoteEvent` is what these statements compute when none of
  them fails.
-/
import OpenAgentGraph.Events.Log
import OpenAgentGraph.Lib.Transaction

namespace OpenAgentGraph

open Lib Repo

variable {H : Type} [DecidableEq H]

namespace Prims

variable (P : Prims H)

/-- The duplicate and the fork: each has a commit of its own. -/
def ingestAtTaken (key : P.VerifyingKey) (signed : SignedEvent) (origin existing eventId : H)
    (receivedAt : Int64) : Tx (Store H) EventsError (IngestOutcome H) :=
  if existing = eventId then do
    Tx.commit
    return .alreadyKnown eventId
  else do
    Tx.update fun s => { s with peers := upsertPeer s.peers origin key.bytes none receivedAt }
    let json ← Tx.lift (orElse .canonicalize (P.toVec.write <$> signed.toJson P.toVec))
    let row : PeerForkRow H :=
      ⟨origin, signed.unsigned.sequence.toInt64, existing, eventId, receivedAt, json⟩
    Tx.update fun s => { s with peerForks := recordFork s.peerForks row }
    Tx.update fun s => { s with peers := markForked s.peers origin }
    Tx.commit
    return .forked existing eventId

/-- The new event.  `project` is several writes: where one of them fails, the
    earlier ones are in the copy that is left. -/
def ingestAtFree (signed : SignedEvent) (origin eventId : H) (previousEvent : Option H)
    (receivedAt : Int64) : Tx (Store H) EventsError (IngestOutcome H) := do
  let sequence := signed.unsigned.sequence
  let row ← Tx.query fun s => getOrigin s.eventOrigins origin
  Tx.lift (P.validateChain (nextOf row).1 (nextOf row).2 sequence previousEvent)
  let canonicalPayload ← Tx.lift (orElse .canonicalize (P.canonicalSigned signed))
  let signatureBytes ← Tx.lift (orElse .hex (hexDecode signed.signature))
  let _ ← Tx.statement fun s => do
    let (events, inserted) ← orElse .storage (insertEvent s.events
      { eventId := eventId, originPeerId := origin, sequence := sequence.toInt64,
        previousEventId := previousEvent, eventType := signed.unsigned.payload.typeStr,
        canonicalPayload := canonicalPayload, createdAt := signed.unsigned.createdAt,
        signature := signatureBytes, receivedAt := receivedAt })
    return (inserted, { s with events := events })
  let outcome ← Tx.statement fun s => do
    let (outcome, proj) ← P.project s.events s.proj eventId signed.unsigned.createdAt
      signed.unsigned.payload
    return (outcome, { s with proj := proj })
  Tx.update fun s => { s with
    eventOrigins := advanceOrigin s.eventOrigins origin sequence.toInt64 eventId }
  Tx.commit
  return .applied eventId outcome

def ingestTransaction (key : P.VerifyingKey) (signed : SignedEvent) (receivedAt : Int64) :
    Tx (Store H) EventsError (IngestOutcome H) := do
  let eventId ← Tx.lift (P.verifyAndDeriveId signed key)
  let claimed ← Tx.lift (orElse .originPeerId (P.peerIdFromStr signed.unsigned.originPeer))
  let derived := P.peerIdOfKey key
  if claimed ≠ derived then
    Tx.lift (.error (.originKeyMismatch (P.peerIdToString claimed) (P.peerIdToString derived)))
  else do
    let previousEvent ← Tx.lift (P.parsePreviousEvent signed.unsigned.previousEvent)
    Tx.begin
    match ← Tx.query fun s => findEventIdAt s.events claimed signed.unsigned.sequence.toInt64 with
    | some existing => P.ingestAtTaken key signed claimed existing eventId receivedAt
    | none => P.ingestAtFree signed claimed eventId previousEvent receivedAt

end Prims

end OpenAgentGraph
