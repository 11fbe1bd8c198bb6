/-
  Event payloads and the signed envelope (`oag-events`: `payload.rs`,
  `envelope.rs`), with their JSON form.

  A payload is written as its tag `event_type` followed by its fields; the
  envelope's fields and the payload's stand side by side in one object
  (`#[serde(flatten)]`).  An absent or null optional field reads as `none`;
  keys that no field has are ignored.
-/
import OpenAgentGraph.Core

namespace OpenAgentGraph

open Lib

/-! ## Payloads -/

structure AssertRelationPayload where
  subjectIdentifier : String
  subjectType : String
  predicate : String
  objectIdentifier : String
  objectType : String
  actorId : String
  /-- An `f32`, by its bits. -/
  actorConfidence : Option UInt32
  observedAt : Option Int64
  extractionMethod : String

structure AddEvidencePayload where
  assertionId : String
  evidenceType : String
  uri : Option String
  title : Option String
  excerpt : Option String
  contentHash : Option String
  observedAt : Option Int64
  retrievedAt : Option Int64
  pinnedCid : Option String
  metadata : Option JsonValue

structure VerifyAssertionPayload where
  assertionId : String
  observerActorId : String
  result : String
  observedAt : Int64

structure DisputeAssertionPayload where
  disputedAssertionId : String
  disputingActorId : String
  reason : Option String

structure RetractAssertionPayload where
  retractedAssertionId : String
  actorId : String
  reason : Option String

structure SupersedeAssertionPayload where
  oldAssertionId : String
  newAssertionId : String
  actorId : String

structure ActorDeclarePayload where
  actorType : String
  name : Option String
  publicKey : Option String
  identityUri : Option String

structure ActorKeyAddPayload where
  actorId : String
  keyHash : String
  permissions : List String

structure ActorKeyRevokePayload where
  actorId : String
  keyHash : String

structure NodeAliasPayload where
  nodeId : String
  aliasName : String
  aliasType : String

inductive EventPayload
  | assertRelation (p : AssertRelationPayload)
  | addEvidence (p : AddEvidencePayload)
  | verifyAssertion (p : VerifyAssertionPayload)
  | disputeAssertion (p : DisputeAssertionPayload)
  | retractAssertion (p : RetractAssertionPayload)
  | supersedeAssertion (p : SupersedeAssertionPayload)
  | actorDeclare (p : ActorDeclarePayload)
  | actorKeyAdd (p : ActorKeyAddPayload)
  | actorKeyRevoke (p : ActorKeyRevokePayload)
  | nodeAlias (p : NodeAliasPayload)

def EventPayload.typeStr : EventPayload → String
  | assertRelation _ => "ASSERT_RELATION"
  | addEvidence _ => "ADD_EVIDENCE"
  | verifyAssertion _ => "VERIFY_ASSERTION"
  | disputeAssertion _ => "DISPUTE_ASSERTION"
  | retractAssertion _ => "RETRACT_ASSERTION"
  | supersedeAssertion _ => "SUPERSEDE_ASSERTION"
  | actorDeclare _ => "ACTOR_DECLARE"
  | actorKeyAdd _ => "ACTOR_KEY_ADD"
  | actorKeyRevoke _ => "ACTOR_KEY_REVOKE"
  | nodeAlias _ => "NODE_ALIAS"

/-! ## Envelope -/

def currentVersion : UInt16 := 1

/-- An event before signing. -/
structure UnsignedEvent where
  version : UInt16
  originPeer : String
  sequence : UInt64
  previousEvent : Option String
  createdAt : Int64
  payload : EventPayload

/-- A signed event.  Its id is not a field: it is derived from the whole. -/
structure SignedEvent where
  unsigned : UnsignedEvent
  signature : String

/-! ## Writing -/

namespace Write

def optStr (o : Option String) : Json := o.elim .null .str
def i64 (n : Int64) : Json := .num (.ofInt64 n)
def optI64 (o : Option Int64) : Json := o.elim .null i64
def optValue (o : Option JsonValue) : Json := o.elim .null JsonValue.val

/-- An optional `f32`, as the serializer writes it. -/
def optF32 (w : Serializer) : Option UInt32 → Except SerdeError Json
  | none => .ok .null
  | some b => w.f32 b

end Write

open Write

def AssertRelationPayload.fields (w : Serializer) (p : AssertRelationPayload) :
    Except SerdeError (List (String × Json)) := do
  let confidence ← optF32 w p.actorConfidence
  return [("subject_identifier", .str p.subjectIdentifier), ("subject_type", .str p.subjectType),
    ("predicate", .str p.predicate), ("object_identifier", .str p.objectIdentifier),
    ("object_type", .str p.objectType), ("actor_id", .str p.actorId),
    ("actor_confidence", confidence), ("observed_at", optI64 p.observedAt),
    ("extraction_method", .str p.extractionMethod)]

def AddEvidencePayload.fields (p : AddEvidencePayload) : List (String × Json) :=
  [("assertion_id", .str p.assertionId), ("evidence_type", .str p.evidenceType),
    ("uri", optStr p.uri), ("title", optStr p.title), ("excerpt", optStr p.excerpt),
    ("content_hash", optStr p.contentHash), ("observed_at", optI64 p.observedAt),
    ("retrieved_at", optI64 p.retrievedAt), ("pinned_cid", optStr p.pinnedCid),
    ("metadata", optValue p.metadata)]

def VerifyAssertionPayload.fields (p : VerifyAssertionPayload) : List (String × Json) :=
  [("assertion_id", .str p.assertionId), ("observer_actor_id", .str p.observerActorId),
    ("result", .str p.result), ("observed_at", i64 p.observedAt)]

def DisputeAssertionPayload.fields (p : DisputeAssertionPayload) : List (String × Json) :=
  [("disputed_assertion_id", .str p.disputedAssertionId),
    ("disputing_actor_id", .str p.disputingActorId), ("reason", optStr p.reason)]

def RetractAssertionPayload.fields (p : RetractAssertionPayload) : List (String × Json) :=
  [("retracted_assertion_id", .str p.retractedAssertionId), ("actor_id", .str p.actorId),
    ("reason", optStr p.reason)]

def SupersedeAssertionPayload.fields (p : SupersedeAssertionPayload) : List (String × Json) :=
  [("old_assertion_id", .str p.oldAssertionId), ("new_assertion_id", .str p.newAssertionId),
    ("actor_id", .str p.actorId)]

def ActorDeclarePayload.fields (p : ActorDeclarePayload) : List (String × Json) :=
  [("actor_type", .str p.actorType), ("name", optStr p.name), ("public_key", optStr p.publicKey),
    ("identity_uri", optStr p.identityUri)]

def ActorKeyAddPayload.fields (p : ActorKeyAddPayload) : List (String × Json) :=
  [("actor_id", .str p.actorId), ("key_hash", .str p.keyHash),
    ("permissions", .arr (p.permissions.map .str))]

def ActorKeyRevokePayload.fields (p : ActorKeyRevokePayload) : List (String × Json) :=
  [("actor_id", .str p.actorId), ("key_hash", .str p.keyHash)]

def NodeAliasPayload.fields (p : NodeAliasPayload) : List (String × Json) :=
  [("node_id", .str p.nodeId), ("alias", .str p.aliasName), ("alias_type", .str p.aliasType)]

/-- The fields of the variant, without the tag. -/
def EventPayload.body (w : Serializer) : EventPayload → Except SerdeError (List (String × Json))
  | assertRelation p => p.fields w
  | addEvidence p => .ok p.fields
  | verifyAssertion p => .ok p.fields
  | disputeAssertion p => .ok p.fields
  | retractAssertion p => .ok p.fields
  | supersedeAssertion p => .ok p.fields
  | actorDeclare p => .ok p.fields
  | actorKeyAdd p => .ok p.fields
  | actorKeyRevoke p => .ok p.fields
  | nodeAlias p => .ok p.fields

def EventPayload.fields (w : Serializer) (p : EventPayload) :
    Except SerdeError (List (String × Json)) := do
  let body ← p.body w
  return ("event_type", .str p.typeStr) :: body

def UnsignedEvent.fields (w : Serializer) (u : UnsignedEvent) :
    Except SerdeError (List (String × Json)) := do
  let payload ← u.payload.fields w
  return [("version", .num (.ofUInt16 u.version)), ("origin_peer", .str u.originPeer),
    ("sequence", .num (.ofUInt64 u.sequence)), ("previous_event", optStr u.previousEvent),
    ("created_at", i64 u.createdAt)] ++ payload

def UnsignedEvent.toJson (w : Serializer) (u : UnsignedEvent) : Except SerdeError Json :=
  .obj <$> u.fields w

def SignedEvent.toJson (w : Serializer) (s : SignedEvent) : Except SerdeError Json := do
  let fields ← s.unsigned.fields w
  return .obj (fields ++ [("signature", .str s.signature)])

/-! ## Reading -/

namespace Read

def str (j : Json) (k : String) : Except SerdeError String :=
  match j.get? k with
  | some (.str s) => .ok s
  | some _ => .error (.invalidType k)
  | none => .error (.missingField k)

/-- A field that may be absent or null. -/
def opt {α : Type} (f : Json → Option α) (j : Json) (k : String) : Except SerdeError (Option α) :=
  match j.get? k with
  | none => .ok none
  | some .null => .ok none
  | some v =>
    match f v with
    | some a => .ok (some a)
    | none => .error (.invalidType k)

def num {α : Type} (f : Number → Option α) (j : Json) (k : String) : Except SerdeError α :=
  match j.get? k with
  | some (.num n) =>
    match f n with
    | some a => .ok a
    | none => .error (.invalidType k)
  | some _ => .error (.invalidType k)
  | none => .error (.missingField k)

def asStr : Json → Option String
  | .str s => some s
  | _ => none

def asI64 : Json → Option Int64
  | .num n => n.toInt64?
  | _ => none

def strs (j : Json) (k : String) : Except SerdeError (List String) :=
  match j.get? k with
  | some (.arr xs) =>
    match xs.mapM asStr with
    | some ss => .ok ss
    | none => .error (.invalidType k)
  | some _ => .error (.invalidType k)
  | none => .error (.missingField k)

end Read

variable {H : Type}

namespace Prims

variable (P : Prims H)

def asF32 : Json → Option UInt32
  | .num n => some (P.f32OfNumber n)
  | _ => none

def readAssertRelation (j : Json) : Except SerdeError AssertRelationPayload := do
  return {
    subjectIdentifier := ← Read.str j "subject_identifier"
    subjectType := ← Read.str j "subject_type"
    predicate := ← Read.str j "predicate"
    objectIdentifier := ← Read.str j "object_identifier"
    objectType := ← Read.str j "object_type"
    actorId := ← Read.str j "actor_id"
    actorConfidence := ← Read.opt P.asF32 j "actor_confidence"
    observedAt := ← Read.opt Read.asI64 j "observed_at"
    extractionMethod := ← Read.str j "extraction_method" }

def readAddEvidence (j : Json) : Except SerdeError AddEvidencePayload := do
  return {
    assertionId := ← Read.str j "assertion_id"
    evidenceType := ← Read.str j "evidence_type"
    uri := ← Read.opt Read.asStr j "uri"
    title := ← Read.opt Read.asStr j "title"
    excerpt := ← Read.opt Read.asStr j "excerpt"
    contentHash := ← Read.opt Read.asStr j "content_hash"
    observedAt := ← Read.opt Read.asI64 j "observed_at"
    retrievedAt := ← Read.opt Read.asI64 j "retrieved_at"
    pinnedCid := ← Read.opt Read.asStr j "pinned_cid"
    metadata := ← Read.opt (fun v => some (JsonValue.ofJson v)) j "metadata" }

def readVerifyAssertion (j : Json) : Except SerdeError VerifyAssertionPayload := do
  return {
    assertionId := ← Read.str j "assertion_id"
    observerActorId := ← Read.str j "observer_actor_id"
    result := ← Read.str j "result"
    observedAt := ← Read.num Number.toInt64? j "observed_at" }

def readDisputeAssertion (j : Json) : Except SerdeError DisputeAssertionPayload := do
  return {
    disputedAssertionId := ← Read.str j "disputed_assertion_id"
    disputingActorId := ← Read.str j "disputing_actor_id"
    reason := ← Read.opt Read.asStr j "reason" }

def readRetractAssertion (j : Json) : Except SerdeError RetractAssertionPayload := do
  return {
    retractedAssertionId := ← Read.str j "retracted_assertion_id"
    actorId := ← Read.str j "actor_id"
    reason := ← Read.opt Read.asStr j "reason" }

def readSupersedeAssertion (j : Json) : Except SerdeError SupersedeAssertionPayload := do
  return {
    oldAssertionId := ← Read.str j "old_assertion_id"
    newAssertionId := ← Read.str j "new_assertion_id"
    actorId := ← Read.str j "actor_id" }

def readActorDeclare (j : Json) : Except SerdeError ActorDeclarePayload := do
  return {
    actorType := ← Read.str j "actor_type"
    name := ← Read.opt Read.asStr j "name"
    publicKey := ← Read.opt Read.asStr j "public_key"
    identityUri := ← Read.opt Read.asStr j "identity_uri" }

def readActorKeyAdd (j : Json) : Except SerdeError ActorKeyAddPayload := do
  return {
    actorId := ← Read.str j "actor_id"
    keyHash := ← Read.str j "key_hash"
    permissions := ← Read.strs j "permissions" }

def readActorKeyRevoke (j : Json) : Except SerdeError ActorKeyRevokePayload := do
  return {
    actorId := ← Read.str j "actor_id"
    keyHash := ← Read.str j "key_hash" }

def readNodeAlias (j : Json) : Except SerdeError NodeAliasPayload := do
  return {
    nodeId := ← Read.str j "node_id"
    aliasName := ← Read.str j "alias"
    aliasType := ← Read.str j "alias_type" }

/-- The payload is chosen by the tag. -/
def readPayload (j : Json) : Except SerdeError EventPayload := do
  let tag ← Read.str j "event_type"
  match tag with
  | "ASSERT_RELATION" => .assertRelation <$> P.readAssertRelation j
  | "ADD_EVIDENCE" => .addEvidence <$> readAddEvidence j
  | "VERIFY_ASSERTION" => .verifyAssertion <$> readVerifyAssertion j
  | "DISPUTE_ASSERTION" => .disputeAssertion <$> readDisputeAssertion j
  | "RETRACT_ASSERTION" => .retractAssertion <$> readRetractAssertion j
  | "SUPERSEDE_ASSERTION" => .supersedeAssertion <$> readSupersedeAssertion j
  | "ACTOR_DECLARE" => .actorDeclare <$> readActorDeclare j
  | "ACTOR_KEY_ADD" => .actorKeyAdd <$> readActorKeyAdd j
  | "ACTOR_KEY_REVOKE" => .actorKeyRevoke <$> readActorKeyRevoke j
  | "NODE_ALIAS" => .nodeAlias <$> readNodeAlias j
  | other => .error (.unknownVariant other)

def readUnsigned (j : Json) : Except SerdeError UnsignedEvent := do
  return {
    version := ← Read.num Number.toUInt16? j "version"
    originPeer := ← Read.str j "origin_peer"
    sequence := ← Read.num Number.toUInt64? j "sequence"
    previousEvent := ← Read.opt Read.asStr j "previous_event"
    createdAt := ← Read.num Number.toInt64? j "created_at"
    payload := ← P.readPayload j }

def readSigned (j : Json) : Except SerdeError SignedEvent := do
  return {
    unsigned := ← P.readUnsigned j
    signature := ← Read.str j "signature" }

/-! ## Bytes -/

/-- `oag_core::canonical_json_bytes` of an unsigned event. -/
def canonicalUnsigned (u : UnsignedEvent) : Except SerdeError Bytes :=
  P.jcs.write <$> u.toJson P.jcs

/-- `oag_core::canonical_json_bytes` of a signed event. -/
def canonicalSigned (s : SignedEvent) : Except SerdeError Bytes :=
  P.jcs.write <$> s.toJson P.jcs

/-- `serde_json::from_slice::<SignedEvent>`. -/
def signedFromSlice (b : Bytes) : Except SerdeError SignedEvent := do
  let j ← P.fromSlice b
  P.readSigned j

end Prims

end OpenAgentGraph
