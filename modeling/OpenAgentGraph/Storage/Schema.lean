/-
  The database (`oag-storage`): the rows of each table.

  A table is the list of its rows in insertion order (SQLite's `rowid`).
  `Projection` holds the tables that the projector writes; the other tables
  of `Store` are untouched by it, which its type says.
-/
import OpenAgentGraph.Core

namespace OpenAgentGraph

open Lib

variable {H : Type}

/-! ## Rows -/

structure EventRow (H : Type) where
  eventId : H
  originPeerId : H
  sequence : Int64
  previousEventId : Option H
  eventType : String
  canonicalPayload : Bytes
  createdAt : Int64
  signature : Bytes
  receivedAt : Int64

structure EventOriginRow (H : Type) where
  originPeerId : H
  highestContiguousSequence : Int64
  highestSeenSequence : Int64
  headEventId : Option H

inductive RefType
  | assertion | edge | node
  deriving DecidableEq, Repr

structure EventRefRow (H : Type) where
  eventId : H
  refType : RefType
  refId : H
  deriving DecidableEq

structure NodeRow (H : Type) where
  nodeId : H
  nodeType : String
  canonicalIdentifier : String
  canonicalUri : Option String
  name : Option String
  description : Option String
  metadata : JsonValue
  createdAt : Int64

structure NodeAliasRow (H : Type) where
  nodeId : H
  aliasName : String
  aliasType : AliasType
  sourceAssertion : Option H

structure EdgeRow (H : Type) where
  edgeId : H
  subject : H
  predicate : String
  object : H
  createdAt : Int64

structure ActorRow (H : Type) where
  actorId : H
  actorType : ActorType
  name : Option String
  publicKey : Option Bytes
  identityUri : Option String
  metadata : JsonValue
  createdAt : Int64

/-- `permissions` is the list that the JSON column holds. -/
structure ActorKeyRow (H : Type) where
  keyHash : H
  actorId : H
  permissions : List String
  createdAt : Int64
  revokedAt : Option Int64

structure AssertionRow (H : Type) where
  id : H
  edgeId : H
  actorId : H
  actorConfidence : Option F32Value
  observedAt : Option Int64
  assertedAt : Int64
  extractionMethod : ExtractionMethod
  status : AssertionStatus

structure EvidenceRow (H : Type) where
  id : H
  assertionId : H
  evidenceType : EvidenceType
  uri : Option String
  title : Option String
  excerpt : Option String
  contentHash : Option String
  observedAt : Option Int64
  retrievedAt : Option Int64
  metadata : JsonValue

structure ObservationRow (H : Type) where
  id : H
  assertionId : H
  observerActorId : H
  result : String
  observedAt : Int64
  createdAt : Int64

structure DisputeRow (H : Type) where
  id : H
  disputedAssertionId : H
  disputingActorId : H
  reason : Option String
  createdAt : Int64

structure RetractionRow (H : Type) where
  id : H
  retractedAssertionId : H
  actorId : H
  reason : Option String
  createdAt : Int64

structure SupersessionRow (H : Type) where
  id : H
  oldAssertionId : H
  newAssertionId : H
  actorId : H
  createdAt : Int64

structure PeerRow (H : Type) where
  peerId : H
  publicKey : Bytes
  name : Option String
  firstSeen : Int64
  lastSeen : Option Int64
  forked : Bool

structure PeerAddressRow (H : Type) where
  peerId : H
  address : String

structure PeerForkRow (H : Type) where
  peerId : H
  sequence : Int64
  eventIdA : H
  eventIdB : H
  detectedAt : Int64
  eventBSignedJson : Bytes

structure PeerKnownHeadRow (H : Type) where
  peerId : H
  originPeerId : H
  sequence : Int64
  observedAt : Int64

structure PeerClusterClaimRow (H : Type) where
  peerId : H
  cluster : String
  declaredAt : Int64

structure RedactionRow (H : Type) where
  eventId : H
  redactedAt : Int64
  reason : Option String

structure ActorRedactionRow (H : Type) where
  actorId : H
  redactedAt : Int64
  reason : Option String

/-! ## The store -/

/-- The tables that the projector writes. -/
structure Projection (H : Type) where
  nodes : List (NodeRow H)
  nodeAliases : List (NodeAliasRow H)
  edges : List (EdgeRow H)
  actors : List (ActorRow H)
  actorKeys : List (ActorKeyRow H)
  assertions : List (AssertionRow H)
  evidence : List (EvidenceRow H)
  observations : List (ObservationRow H)
  disputes : List (DisputeRow H)
  retractions : List (RetractionRow H)
  supersessions : List (SupersessionRow H)
  eventRefs : List (EventRefRow H)

structure Store (H : Type) where
  events : List (EventRow H)
  eventOrigins : List (EventOriginRow H)
  proj : Projection H
  peers : List (PeerRow H)
  peerAddresses : List (PeerAddressRow H)
  peerForks : List (PeerForkRow H)
  peerKnownHeads : List (PeerKnownHeadRow H)
  peerClusterClaims : List (PeerClusterClaimRow H)
  redactions : List (RedactionRow H)
  actorRedactions : List (ActorRedactionRow H)

def Projection.empty : Projection H := ⟨[], [], [], [], [], [], [], [], [], [], [], []⟩

/-- A freshly created database. -/
def Store.empty : Store H := ⟨[], [], .empty, [], [], [], [], [], [], []⟩

/-- The constraint that an SQLite statement breaks. -/
inductive SqlxError
  | foreignKey
  | unique
  /-- No row id is left. -/
  | full
  deriving DecidableEq, Repr

inductive StorageError
  | sqlx (e : SqlxError)
  | badIdLength (n : ℕ)
  | badMetadata (e : SerdeError)
  | notFound
  deriving DecidableEq, Repr

/-- A `REAL` column: SQLite has no NaN and stores NULL for it. -/
def realColumn (o : Option UInt32) : Option F32Value :=
  o.bind fun b =>
    match f32Value b with
    | .nan => none
    | v => some v

end OpenAgentGraph
