/-
  The event log (`oag-events`: `builder.rs`, `validate.rs`, `commit.rs`,
  `ingest.rs`): building and signing local events, verifying and ingesting
  remote ones.

  `commitLocalEvent` and `ingestRemoteEvent` are one transaction each: they
  return the store after the commit, or an error and no store.
-/
import OpenAgentGraph.Events.Projector

namespace OpenAgentGraph

open Lib Repo

variable {H : Type}

inductive IngestOutcome (H : Type)
  | applied (eventId : H) (outcome : ProjectionOutcome H)
  | alreadyKnown (eventId : H)
  | forked (existing incoming : H)

namespace Prims

variable (P : Prims H)

/-- `EventId::derive`. -/
def eventIdOf (canonical : Bytes) : H := P.derive eventIdPrefix canonical

/-- Builds and signs an event of this peer. -/
def buildAndSign (identity : PeerIdentity) (sequence : UInt64) (previousEvent : Option H)
    (createdAt : Int64) (payload : EventPayload) : Except EventsError (SignedEvent × H) := do
  let unsigned : UnsignedEvent := {
    version := currentVersion
    originPeer := P.peerIdToString (identity.peerId P)
    sequence := sequence
    previousEvent := previousEvent.map P.toHex
    createdAt := createdAt
    payload := payload }
  let canonicalUnsigned ← orElse .canonicalize (P.canonicalUnsigned unsigned)
  let signature := P.signWithDomain identity eventIdPrefix canonicalUnsigned
  let signed : SignedEvent := ⟨unsigned, hexEncode signature⟩
  let canonicalSigned ← orElse .canonicalize (P.canonicalSigned signed)
  return (signed, P.eventIdOf canonicalSigned)

/-- Verifies the signature, then derives the id from the whole envelope. -/
def verifyAndDeriveId (signed : SignedEvent) (key : P.VerifyingKey) : Except EventsError H := do
  let canonicalUnsigned ← orElse .canonicalize (P.canonicalUnsigned signed.unsigned)
  let signature ← orElse .hex (hexDecode signed.signature)
  if signature.length ≠ 64 then
    throw (.badSignatureLength signature.length)
  if !P.verifyWithDomain key eventIdPrefix canonicalUnsigned signature then
    throw .invalidSignature
  let canonicalSigned ← orElse .canonicalize (P.canonicalSigned signed)
  return P.eventIdOf canonicalSigned

/-- The id in `previous_event`, if any. -/
def parsePreviousEvent : Option String → Except EventsError (Option H)
  | none => .ok none
  | some text => some <$> P.parseId text

variable [DecidableEq H]

/-- The event continues the origin's chain without a gap. -/
def validateChain (expectedNextSequence : UInt64) (expectedHead : Option H) (sequence : UInt64)
    (previousEvent : Option H) : Except EventsError Unit :=
  if sequence ≠ expectedNextSequence then
    .error (.sequenceGap expectedNextSequence sequence)
  else if previousEvent ≠ expectedHead then
    .error (.previousEventMismatch (expectedHead.map P.toHex) (previousEvent.map P.toHex))
  else .ok ()

/-- The next sequence number of an origin and its head event. -/
def nextOf (origin : Option (EventOriginRow H)) : UInt64 × Option H :=
  match origin with
  | some row => (row.highestContiguousSequence.toUInt64 + 1, row.headEventId)
  | none => (1, none)

/-- Stores and projects a new event of this peer. -/
def commitLocalEvent (s : Store H) (identity : PeerIdentity) (payload : EventPayload)
    (createdAt : Int64) : Except EventsError (Store H × H × ProjectionOutcome H) := do
  let peerId := identity.peerId P
  let (nextSequence, previousEvent) := nextOf (getOrigin s.eventOrigins peerId)
  let (signed, eventId) ← P.buildAndSign identity nextSequence previousEvent createdAt payload
  let canonicalPayload ← orElse .canonicalize (P.canonicalSigned signed)
  let signatureBytes ← orElse .hex (hexDecode signed.signature)
  let (events, inserted) ← orElse .storage (insertEvent s.events
    { eventId := eventId, originPeerId := peerId, sequence := nextSequence.toInt64,
      previousEventId := previousEvent, eventType := signed.unsigned.payload.typeStr,
      canonicalPayload := canonicalPayload, createdAt := createdAt, signature := signatureBytes,
      receivedAt := createdAt })
  if !inserted then
    throw (.notFound ("event " ++ P.toHex eventId ++ " already existed unexpectedly"))
  let (outcome, proj) ← P.project events s.proj eventId createdAt signed.unsigned.payload
  let origins := advanceOrigin s.eventOrigins peerId nextSequence.toInt64 eventId
  return ({ s with events := events, proj := proj, eventOrigins := origins }, eventId, outcome)

/-- The event is stored and projected; its origin's head advances. -/
def applyRemoteEvent (s : Store H) (signed : SignedEvent) (eventId origin : H)
    (previousEvent : Option H) (receivedAt : Int64) :
    Except EventsError (Store H × ProjectionOutcome H) := do
  let sequence := signed.unsigned.sequence
  let (expectedNextSequence, expectedHead) := nextOf (getOrigin s.eventOrigins origin)
  P.validateChain expectedNextSequence expectedHead sequence previousEvent
  let canonicalPayload ← orElse .canonicalize (P.canonicalSigned signed)
  let signatureBytes ← orElse .hex (hexDecode signed.signature)
  let (events, _) ← orElse .storage (insertEvent s.events
    { eventId := eventId, originPeerId := origin, sequence := sequence.toInt64,
      previousEventId := previousEvent, eventType := signed.unsigned.payload.typeStr,
      canonicalPayload := canonicalPayload, createdAt := signed.unsigned.createdAt,
      signature := signatureBytes, receivedAt := receivedAt })
  let (outcome, proj) ← P.project events s.proj eventId signed.unsigned.createdAt
    signed.unsigned.payload
  let origins := advanceOrigin s.eventOrigins origin sequence.toInt64 eventId
  return ({ s with events := events, proj := proj, eventOrigins := origins }, outcome)

/-- A different event is already stored at the same sequence: the fork is
    recorded and the origin flagged. -/
def recordForkOf (s : Store H) (key : P.VerifyingKey) (signed : SignedEvent) (origin existing : H)
    (eventId : H) (receivedAt : Int64) : Except EventsError (Store H) := do
  let peers := upsertPeer s.peers origin key.bytes none receivedAt
  let json ← orElse .canonicalize (P.toVec.write <$> signed.toJson P.toVec)
  let forks := recordFork s.peerForks
    ⟨origin, signed.unsigned.sequence.toInt64, existing, eventId, receivedAt, json⟩
  return { s with peers := markForked peers origin, peerForks := forks }

/-- Offers an event of a remote origin, with the key trusted for it. -/
def ingestRemoteEvent (s : Store H) (key : P.VerifyingKey) (signed : SignedEvent)
    (receivedAt : Int64) : Except EventsError (Store H × IngestOutcome H) := do
  let eventId ← P.verifyAndDeriveId signed key
  let claimed ← orElse .originPeerId (P.peerIdFromStr signed.unsigned.originPeer)
  let derived := P.peerIdOfKey key
  if claimed ≠ derived then
    throw (.originKeyMismatch (P.peerIdToString claimed) (P.peerIdToString derived))
  let previousEvent ← P.parsePreviousEvent signed.unsigned.previousEvent
  match findEventIdAt s.events claimed signed.unsigned.sequence.toInt64 with
  | some existing =>
    if existing = eventId then return (s, .alreadyKnown eventId)
    else
      let s ← P.recordForkOf s key signed claimed existing eventId receivedAt
      return (s, .forked existing eventId)
  | none =>
    let (s, outcome) ← P.applyRemoteEvent s signed eventId claimed previousEvent receivedAt
    return (s, .applied eventId outcome)

end Prims

end OpenAgentGraph
