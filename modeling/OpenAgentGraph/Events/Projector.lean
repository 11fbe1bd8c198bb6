/-
  The projector (`oag-events/src/projector.rs`): applies the payload of an
  event to the graph tables.

  `project` is called inside the transaction that inserted the event's row;
  it reads the events table only for the foreign key of `event_refs`.
-/
import OpenAgentGraph.Events.Payload
import OpenAgentGraph.Storage.Repo

namespace OpenAgentGraph

open Lib Repo

/-! ## Errors -/

inductive EventsError
  | canonicalize (e : SerdeError)
  | invalidSignature
  | hex (e : FromHexError)
  | id (e : Prims.Hash32ParseError)
  | sequenceGap (expected got : UInt64)
  | previousEventMismatch (expected declared : Option String)
  | unknownExtractionMethod (s : String)
  | badSignatureLength (n : ℕ)
  | storage (e : StorageError)
  | notFound (s : String)
  | originPeerId (e : Prims.PeerIdParseError)
  | originKeyMismatch (claimed derived : String)
  deriving DecidableEq, Repr

/-- `?` on a library's error. -/
def orElse {ε α : Type} (f : ε → EventsError) : Except ε α → Except EventsError α
  | .ok a => .ok a
  | .error e => .error (f e)

/-- `ok_or`. -/
def okOr {α : Type} (e : EventsError) : Option α → Except EventsError α
  | some a => .ok a
  | none => .error e

variable {H : Type}

inductive ProjectionOutcome (H : Type)
  | unit
  | actorDeclared (actorId : H)

/-! ## Evidence metadata -/

/-- Merges the pinned CID into the metadata object; metadata of another shape
    counts as an empty object. -/
def buildEvidenceMetadata (pinnedCid : Option String) (metadata : Option JsonValue) : JsonValue :=
  let base : { kvs : List (String × Json) // (Json.obj kvs).canon = .obj kvs } :=
    match metadata with
    | some ⟨.obj kvs, h⟩ => ⟨kvs, h⟩
    | _ => ⟨[], JsonValue.canon_empty⟩
  match pinnedCid with
  | some cid => ⟨.obj (Json.insert "ipfs_cid" (.str cid) base.1), Json.canon_insert base.2 rfl⟩
  | none => ⟨.obj base.1, base.2⟩

namespace Prims

variable (P : Prims H)

/-- An id in a payload field. -/
def parseId (s : String) : Except EventsError H := orElse .id (P.hashFromStr s)

/-- A 32-byte key hash in a payload field. -/
def parseKeyHash (s : String) : Except EventsError H := do
  let bytes ← orElse .hex (hexDecode s)
  okOr (.badSignatureLength bytes.length) (P.digestOfBytes bytes)

variable [DecidableEq H]

/-! ## Assertions -/

def resolveOrCreateNode (g : Projection H) (identifier nodeType : String) (createdAt : Int64) :
    H × Projection H :=
  let nodeId := P.nodeId identifier
  if (getNode g nodeId).isNone then
    (nodeId, insertNodeIfMissing g
      ⟨nodeId, P.nodeType nodeType, identifier, none, none, none, .emptyObj, createdAt⟩)
  else (nodeId, g)

def projectAssertRelation (events : List (EventRow H)) (g : Projection H) (eventId : H)
    (createdAt : Int64) (p : AssertRelationPayload) : Except EventsError (Projection H) := do
  let (subjectId, g) := P.resolveOrCreateNode g p.subjectIdentifier p.subjectType createdAt
  let (objectId, g) := P.resolveOrCreateNode g p.objectIdentifier p.objectType createdAt
  let predicate := P.predicate p.predicate
  let edgeId := P.edgeId subjectId predicate objectId
  let g ← orElse .storage (insertEdgeIfMissing g ⟨edgeId, subjectId, predicate, objectId, createdAt⟩)
  let actorId ← P.parseId p.actorId
  let extractionMethod ← okOr (.unknownExtractionMethod p.extractionMethod)
    (ExtractionMethod.parse p.extractionMethod)
  let g ← orElse .storage (insertAssertion g
    ⟨eventId, edgeId, actorId, realColumn p.actorConfidence, p.observedAt, createdAt,
      extractionMethod, .active⟩)
  let g ← orElse .storage (addRef events g eventId .assertion eventId)
  let g ← orElse .storage (addRef events g eventId .edge edgeId)
  let g ← orElse .storage (addRef events g eventId .node subjectId)
  orElse .storage (addRef events g eventId .node objectId)

def projectAddEvidence (events : List (EventRow H)) (g : Projection H) (eventId : H)
    (p : AddEvidencePayload) : Except EventsError (Projection H) := do
  let assertionId ← P.parseId p.assertionId
  if (getAssertion g assertionId).isNone then
    throw (.notFound ("assertion " ++ p.assertionId))
  let evidenceType ← okOr (.unknownExtractionMethod p.evidenceType) (EvidenceType.parse p.evidenceType)
  let g ← orElse .storage (insertEvidence g
    ⟨eventId, assertionId, evidenceType, p.uri, p.title, p.excerpt, p.contentHash, p.observedAt,
      p.retrievedAt, buildEvidenceMetadata p.pinnedCid p.metadata⟩)
  orElse .storage (addRef events g eventId .assertion assertionId)

def projectVerifyAssertion (events : List (EventRow H)) (g : Projection H) (eventId : H)
    (createdAt : Int64) (p : VerifyAssertionPayload) : Except EventsError (Projection H) := do
  let assertionId ← P.parseId p.assertionId
  let observerActorId ← P.parseId p.observerActorId
  if (getAssertion g assertionId).isNone then
    throw (.notFound ("assertion " ++ p.assertionId))
  let g ← orElse .storage (insertObservation g
    ⟨eventId, assertionId, observerActorId, p.result, p.observedAt, createdAt⟩)
  orElse .storage (addRef events g eventId .assertion assertionId)

def projectDisputeAssertion (events : List (EventRow H)) (g : Projection H) (eventId : H)
    (createdAt : Int64) (p : DisputeAssertionPayload) : Except EventsError (Projection H) := do
  let disputedAssertionId ← P.parseId p.disputedAssertionId
  let disputingActorId ← P.parseId p.disputingActorId
  if (getAssertion g disputedAssertionId).isNone then
    throw (.notFound ("assertion " ++ p.disputedAssertionId))
  let g ← orElse .storage (insertDispute g
    ⟨eventId, disputedAssertionId, disputingActorId, p.reason, createdAt⟩)
  let g := setStatus g disputedAssertionId .disputed
  orElse .storage (addRef events g eventId .assertion disputedAssertionId)

def projectRetractAssertion (events : List (EventRow H)) (g : Projection H) (eventId : H)
    (createdAt : Int64) (p : RetractAssertionPayload) : Except EventsError (Projection H) := do
  let retractedAssertionId ← P.parseId p.retractedAssertionId
  let actorId ← P.parseId p.actorId
  if (getAssertion g retractedAssertionId).isNone then
    throw (.notFound ("assertion " ++ p.retractedAssertionId))
  let g ← orElse .storage (insertRetraction g
    ⟨eventId, retractedAssertionId, actorId, p.reason, createdAt⟩)
  let g := setStatus g retractedAssertionId .retracted
  orElse .storage (addRef events g eventId .assertion retractedAssertionId)

def projectSupersedeAssertion (events : List (EventRow H)) (g : Projection H) (eventId : H)
    (createdAt : Int64) (p : SupersedeAssertionPayload) : Except EventsError (Projection H) := do
  let oldAssertionId ← P.parseId p.oldAssertionId
  let newAssertionId ← P.parseId p.newAssertionId
  let actorId ← P.parseId p.actorId
  if (getAssertion g oldAssertionId).isNone then
    throw (.notFound ("old assertion " ++ P.toHex oldAssertionId))
  if (getAssertion g newAssertionId).isNone then
    throw (.notFound ("new assertion " ++ P.toHex newAssertionId))
  let g ← orElse .storage (insertSupersession g
    ⟨eventId, oldAssertionId, newAssertionId, actorId, createdAt⟩)
  let g := setStatus g oldAssertionId .superseded
  let g ← orElse .storage (addRef events g eventId .assertion oldAssertionId)
  orElse .storage (addRef events g eventId .assertion newAssertionId)

/-! ## Actors, keys, aliases -/

/-- The public key of a declaration: hex of 32 bytes. -/
def parsePublicKey (s : String) : Except EventsError Bytes := do
  let bytes ← orElse .hex (hexDecode s)
  if bytes.length = 32 then return bytes else throw (.badSignatureLength bytes.length)

/-- An actor with a public key has the same id in every declaration; one
    without is identified by the declaring event. -/
def actorIdOf (eventId : H) (publicKey : Option String) : H :=
  P.derive actorIdPrefix (utf8 (publicKey.getD (P.toHex eventId)))

def projectActorDeclare (g : Projection H) (eventId : H) (createdAt : Int64)
    (p : ActorDeclarePayload) : Except EventsError (H × Projection H) := do
  let actorType ← okOr (.unknownExtractionMethod p.actorType) (ActorType.parse p.actorType)
  let publicKey ← match p.publicKey with
    | none => pure none
    | some s => some <$> parsePublicKey s
  let actorId := P.actorIdOf eventId p.publicKey
  return (actorId, insertActor g
    ⟨actorId, actorType, p.name, publicKey, p.identityUri, .emptyObj, createdAt⟩)

def projectNodeAlias (g : Projection H) (p : NodeAliasPayload) :
    Except EventsError (Projection H) := do
  let nodeId ← P.parseId p.nodeId
  if (getNode g nodeId).isNone then
    throw (.notFound ("node " ++ p.nodeId))
  let aliasType ← okOr (.unknownExtractionMethod p.aliasType) (AliasType.parse p.aliasType)
  orElse .storage (insertAlias g ⟨nodeId, p.aliasName, aliasType, none⟩)

def projectActorKeyAdd (g : Projection H) (createdAt : Int64) (p : ActorKeyAddPayload) :
    Except EventsError (Projection H) := do
  let actorId ← P.parseId p.actorId
  let keyHash ← P.parseKeyHash p.keyHash
  orElse .storage (createKey g keyHash actorId (p.permissions.filterMap Permission.parse) createdAt)

/-- Revoking an unknown or a revoked key changes nothing. -/
def projectActorKeyRevoke (g : Projection H) (createdAt : Int64) (p : ActorKeyRevokePayload) :
    Except EventsError (Projection H) := do
  let keyHash ← P.parseKeyHash p.keyHash
  return revokeKey g keyHash createdAt

/-! ## Dispatch -/

/-- Applies an event's payload to the projection tables. -/
def project (events : List (EventRow H)) (g : Projection H) (eventId : H) (createdAt : Int64) :
    EventPayload → Except EventsError (ProjectionOutcome H × Projection H)
  | .assertRelation p => do
    return (.unit, ← P.projectAssertRelation events g eventId createdAt p)
  | .addEvidence p => do
    return (.unit, ← P.projectAddEvidence events g eventId p)
  | .verifyAssertion p => do
    return (.unit, ← P.projectVerifyAssertion events g eventId createdAt p)
  | .disputeAssertion p => do
    return (.unit, ← P.projectDisputeAssertion events g eventId createdAt p)
  | .retractAssertion p => do
    return (.unit, ← P.projectRetractAssertion events g eventId createdAt p)
  | .supersedeAssertion p => do
    return (.unit, ← P.projectSupersedeAssertion events g eventId createdAt p)
  | .actorDeclare p => do
    let (actorId, g) ← P.projectActorDeclare g eventId createdAt p
    return (.actorDeclared actorId, g)
  | .actorKeyAdd p => do
    return (.unit, ← P.projectActorKeyAdd g createdAt p)
  | .actorKeyRevoke p => do
    return (.unit, ← P.projectActorKeyRevoke g createdAt p)
  | .nodeAlias p => do
    return (.unit, ← P.projectNodeAlias g p)

end Prims

end OpenAgentGraph
