/-
  The repository functions (`oag-storage/src/repo`) that the event log, the
  projector and the synchronization call: one SQL statement each, with the
  keys and the foreign keys of its table.

  A statement that fails returns no state: its transaction is rolled back.
-/
import OpenAgentGraph.Lib.Table
import OpenAgentGraph.Storage.Schema

namespace OpenAgentGraph

open Lib

variable {H : Type} [DecidableEq H]

namespace Repo

/-! ## Events -/

/-- The largest number of rows a table can hold: row ids are positive `i64`s. -/
def maxRows : ℕ := 2 ^ 63 - 1

/-- `INSERT OR IGNORE`: the row is kept out when its id, or its origin and
    sequence, are taken. -/
def insertEvent (events : List (EventRow H)) (row : EventRow H) :
    Except StorageError (List (EventRow H) × Bool) :=
  if Table.hasKey EventRow.eventId row.eventId events ||
      Table.hasKey (fun r => (r.originPeerId, r.sequence)) (row.originPeerId, row.sequence) events then
    .ok (events, false)
  else if events.length < maxRows then .ok (events ++ [row], true)
  else .error (.sqlx .full)

def getOrigin (origins : List (EventOriginRow H)) (origin : H) : Option (EventOriginRow H) :=
  Table.find EventOriginRow.originPeerId origin origins

def advanceOrigin (origins : List (EventOriginRow H)) (origin : H) (newSequence : Int64)
    (newHead : H) : List (EventOriginRow H) :=
  let row : EventOriginRow H := ⟨origin, newSequence, newSequence, some newHead⟩
  Table.upsert EventOriginRow.originPeerId row
    (fun r => { r with highestContiguousSequence := newSequence, highestSeenSequence := newSequence,
                       headEventId := some newHead }) origins

/-- The id of the event stored at a sequence of an origin. -/
def findEventIdAt (events : List (EventRow H)) (origin : H) (sequence : Int64) : Option H :=
  (Table.find (fun r : EventRow H => (r.originPeerId, r.sequence)) (origin, sequence) events).map
    EventRow.eventId

/-- One origin's events with a sequence in `[from, to]`, oldest first. -/
def listRange (events : List (EventRow H)) (origin : H) (lo hi : Int64) : List (EventRow H) :=
  (events.filter fun r => decide (r.originPeerId = origin) && decide (lo ≤ r.sequence) &&
    decide (r.sequence ≤ hi)).mergeSort fun a b => decide (a.sequence ≤ b.sequence)

/-- `INSERT OR IGNORE` into `event_refs`, whose event must exist. -/
def addRef (events : List (EventRow H)) (g : Projection H) (eventId : H) (refType : RefType)
    (refId : H) : Except StorageError (Projection H) :=
  let row : EventRefRow H := ⟨eventId, refType, refId⟩
  if Table.hasKey id row g.eventRefs || Table.hasKey EventRow.eventId eventId events then
    .ok { g with eventRefs := Table.insertOrIgnore id row g.eventRefs }
  else .error (.sqlx .foreignKey)

/-! ## Graph tables -/

def getNode (g : Projection H) (id : H) : Option (NodeRow H) := Table.find NodeRow.nodeId id g.nodes

/-- `INSERT OR IGNORE`: both the id and the identifier are unique. -/
def insertNodeIfMissing (g : Projection H) (row : NodeRow H) : Projection H :=
  if Table.hasKey NodeRow.canonicalIdentifier row.canonicalIdentifier g.nodes then g
  else { g with nodes := Table.insertOrIgnore NodeRow.nodeId row g.nodes }

def hasNode (g : Projection H) (id : H) : Bool := Table.hasKey NodeRow.nodeId id g.nodes
def hasActor (g : Projection H) (id : H) : Bool := Table.hasKey ActorRow.actorId id g.actors
def hasEdge (g : Projection H) (id : H) : Bool := Table.hasKey EdgeRow.edgeId id g.edges
def hasAssertion (g : Projection H) (id : H) : Bool := Table.hasKey AssertionRow.id id g.assertions

/-- A foreign key that a row of the statement breaks. -/
def requireKey (b : Bool) : Except StorageError Unit :=
  if b then .ok () else .error (.sqlx .foreignKey)

/-- `INSERT` into a table with a primary key. -/
def insertNew {α κ : Type} [DecidableEq κ] (key : α → κ) (x : α) (t : List α) :
    Except StorageError (List α) :=
  match Table.insertNew key x t with
  | some t' => .ok t'
  | none => .error (.sqlx .unique)

def insertAlias (g : Projection H) (row : NodeAliasRow H) : Except StorageError (Projection H) := do
  requireKey (Table.hasKey (fun r => (r.nodeId, r.aliasName)) (row.nodeId, row.aliasName)
    g.nodeAliases || hasNode g row.nodeId)
  return { g with nodeAliases :=
    Table.insertOrIgnore (fun r => (r.nodeId, r.aliasName)) row g.nodeAliases }

def insertEdgeIfMissing (g : Projection H) (row : EdgeRow H) :
    Except StorageError (Projection H) := do
  requireKey (hasEdge g row.edgeId || (hasNode g row.subject && hasNode g row.object))
  return { g with edges := Table.insertOrIgnore EdgeRow.edgeId row g.edges }

def insertActor (g : Projection H) (row : ActorRow H) : Projection H :=
  { g with actors := Table.insertOrIgnore ActorRow.actorId row g.actors }

def createKey (g : Projection H) (keyHash actorId : H) (permissions : List Permission)
    (createdAt : Int64) : Except StorageError (Projection H) := do
  let keys ← insertNew ActorKeyRow.keyHash
    ⟨keyHash, actorId, permissions.map Permission.asStr, createdAt, none⟩ g.actorKeys
  requireKey (hasActor g actorId)
  return { g with actorKeys := keys }

/-- Sets `revoked_at` of a key that has none. -/
def revokeKey (g : Projection H) (keyHash : H) (revokedAt : Int64) : Projection H :=
  let keys := Table.updateWhere (fun r => decide (r.keyHash = keyHash) && r.revokedAt.isNone)
    (fun r => { r with revokedAt := some revokedAt }) g.actorKeys
  { g with actorKeys := keys }

structure AuthenticatedKey (H : Type) where
  actorId : H
  permissions : List Permission

def findActiveKey (g : Projection H) (keyHash : H) : Option (AuthenticatedKey H) :=
  (g.actorKeys.find? fun r => decide (r.keyHash = keyHash) && r.revokedAt.isNone).map fun r =>
    ⟨r.actorId, r.permissions.filterMap Permission.parse⟩

def getAssertion (g : Projection H) (id : H) : Option (AssertionRow H) :=
  Table.find AssertionRow.id id g.assertions

def insertAssertion (g : Projection H) (row : AssertionRow H) :
    Except StorageError (Projection H) := do
  let rows ← insertNew AssertionRow.id row g.assertions
  requireKey (hasEdge g row.edgeId && hasActor g row.actorId)
  return { g with assertions := rows }

def setStatus (g : Projection H) (id : H) (status : AssertionStatus) : Projection H :=
  let rows := Table.updateWhere (fun r => decide (r.id = id))
    (fun r => { r with status := status }) g.assertions
  { g with assertions := rows }

def insertEvidence (g : Projection H) (row : EvidenceRow H) : Except StorageError (Projection H) := do
  let rows ← insertNew EvidenceRow.id row g.evidence
  requireKey (hasAssertion g row.assertionId)
  return { g with evidence := rows }

def insertObservation (g : Projection H) (row : ObservationRow H) :
    Except StorageError (Projection H) := do
  let rows ← insertNew ObservationRow.id row g.observations
  requireKey (hasAssertion g row.assertionId && hasActor g row.observerActorId)
  return { g with observations := rows }

def insertDispute (g : Projection H) (row : DisputeRow H) : Except StorageError (Projection H) := do
  let rows ← insertNew DisputeRow.id row g.disputes
  requireKey (hasAssertion g row.disputedAssertionId && hasActor g row.disputingActorId)
  return { g with disputes := rows }

def insertRetraction (g : Projection H) (row : RetractionRow H) :
    Except StorageError (Projection H) := do
  let rows ← insertNew RetractionRow.id row g.retractions
  requireKey (hasAssertion g row.retractedAssertionId && hasActor g row.actorId)
  return { g with retractions := rows }

def insertSupersession (g : Projection H) (row : SupersessionRow H) :
    Except StorageError (Projection H) := do
  let rows ← insertNew SupersessionRow.id row g.supersessions
  requireKey (hasAssertion g row.oldAssertionId && hasAssertion g row.newAssertionId &&
    hasActor g row.actorId)
  return { g with supersessions := rows }

/-- Clears the free text of an evidence row; says whether there was one. -/
def redactEvidence (g : Projection H) (eventId : H) : Projection H × Bool :=
  let rows := Table.updateWhere (fun r => decide (r.id = eventId))
    (fun r => { r with title := none, excerpt := none }) g.evidence
  ({ g with evidence := rows }, Table.hasKey EvidenceRow.id eventId g.evidence)

def redactIdentityUri (g : Projection H) (actorId : H) : Projection H × Bool :=
  let rows := Table.updateWhere (fun r => decide (r.actorId = actorId))
    (fun r => { r with identityUri := none }) g.actors
  ({ g with actors := rows }, Table.hasKey ActorRow.actorId actorId g.actors)

/-! ## Peers -/

/-- A peers row whose key column has the length of a key. -/
structure PeerInfo (H : Type) where
  peerId : H
  publicKey : Bytes
  lastSeen : Option Int64
  forked : Bool

def upsertPeer (peers : List (PeerRow H)) (peerId : H) (publicKey : Bytes) (name : Option String)
    (seenAt : Int64) : List (PeerRow H) :=
  Table.upsert PeerRow.peerId ⟨peerId, publicKey, name, seenAt, some seenAt, false⟩
    (fun r => { r with lastSeen := some seenAt, name := name.or r.name }) peers

def rowToInfo (r : PeerRow H) : Except StorageError (PeerInfo H) :=
  if r.publicKey.length = 32 then .ok ⟨r.peerId, r.publicKey, r.lastSeen, r.forked⟩
  else .error (.badIdLength r.publicKey.length)

def getPeer (peers : List (PeerRow H)) (peerId : H) : Except StorageError (Option (PeerInfo H)) :=
  match Table.find PeerRow.peerId peerId peers with
  | none => .ok none
  | some r => some <$> rowToInfo r

/-- Every peer, in the order they were first seen. -/
def listPeers (peers : List (PeerRow H)) : Except StorageError (List (PeerInfo H)) :=
  (peers.mergeSort fun a b => decide (a.firstSeen ≤ b.firstSeen)).mapM rowToInfo

def listAddresses (addresses : List (PeerAddressRow H)) (peerId : H) : List String :=
  (addresses.filter fun r => decide (r.peerId = peerId)).map PeerAddressRow.address

def addAddress (peers : List (PeerRow H)) (addresses : List (PeerAddressRow H)) (peerId : H)
    (address : String) : Except StorageError (List (PeerAddressRow H)) := do
  requireKey (Table.hasKey (fun r => (r.peerId, r.address)) (peerId, address) addresses ||
    Table.hasKey PeerRow.peerId peerId peers)
  return Table.insertOrIgnore (fun r => (r.peerId, r.address)) ⟨peerId, address⟩ addresses

def deleteAddresses (addresses : List (PeerAddressRow H)) (peerId : H) : List (PeerAddressRow H) :=
  addresses.filter fun r => decide (r.peerId ≠ peerId)

/-- `DELETE FROM peers`, refused while an address refers to the row. -/
def deletePeer (peers : List (PeerRow H)) (addresses : List (PeerAddressRow H)) (peerId : H) :
    Except StorageError (List (PeerRow H)) := do
  requireKey !(Table.hasKey PeerRow.peerId peerId peers &&
    Table.hasKey PeerAddressRow.peerId peerId addresses)
  return peers.filter fun r => decide (r.peerId ≠ peerId)

/-- Two statements, each a transaction of its own. -/
def removePeer (s : Store H) (peerId : H) : Store H × Except StorageError Unit :=
  let s := { s with peerAddresses := deleteAddresses s.peerAddresses peerId }
  match deletePeer s.peers s.peerAddresses peerId with
  | .ok peers => ({ s with peers := peers }, .ok ())
  | .error e => (s, .error e)

def markForked (peers : List (PeerRow H)) (peerId : H) : List (PeerRow H) :=
  Table.updateWhere (fun r => decide (r.peerId = peerId)) (fun r => { r with forked := true }) peers

def recordFork (forks : List (PeerForkRow H)) (row : PeerForkRow H) : List (PeerForkRow H) :=
  Table.insertOrIgnore (fun r => (r.peerId, r.sequence)) row forks

def listForks (forks : List (PeerForkRow H)) (peerId : H) : List (PeerForkRow H) :=
  forks.filter fun r => decide (r.peerId = peerId)

def upsertKnownHead (heads : List (PeerKnownHeadRow H)) (peerId origin : H) (sequence : Int64)
    (observedAt : Int64) : List (PeerKnownHeadRow H) :=
  Table.upsert (fun r => (r.peerId, r.originPeerId)) ⟨peerId, origin, sequence, observedAt⟩
    (fun r => { r with sequence := sequence, observedAt := observedAt }) heads

def getClusterClaim (claims : List (PeerClusterClaimRow H)) (peerId : H) :
    Option (PeerClusterClaimRow H) :=
  Table.find PeerClusterClaimRow.peerId peerId claims

/-! ## Clearing the projection -/

/-- Some row of a child table refers to some row of its parent. -/
def referenced {α β : Type} (refersTo : β → α → Bool) (children : List β) (rows : List α) : Bool :=
  children.any fun b => rows.any fun a => refersTo b a

/-- `DELETE FROM` a table, refused while a row of it is referred to. -/
def deleteRows (isReferenced : Bool) : Except StorageError Unit := requireKey !isReferenced

/-- `clear_projection_tables`: every projection table but `event_refs`,
    children first. -/
def clearProjectionTables (g : Projection H) : Except StorageError (Projection H) := do
  let g := { g with evidence := [] }
  let g := { g with observations := [] }
  let g := { g with disputes := [] }
  let g := { g with retractions := [] }
  let g := { g with supersessions := [] }
  deleteRows <|
    referenced (fun b a => decide (b.assertionId = a.id)) g.evidence g.assertions ||
    referenced (fun b a => decide (b.assertionId = a.id)) g.observations g.assertions ||
    referenced (fun b a => decide (b.disputedAssertionId = a.id)) g.disputes g.assertions ||
    referenced (fun b a => decide (b.retractedAssertionId = a.id)) g.retractions g.assertions ||
    referenced (fun b a => decide (b.oldAssertionId = a.id) || decide (b.newAssertionId = a.id))
      g.supersessions g.assertions
  let g := { g with assertions := [] }
  let g := { g with actorKeys := [] }
  let g := { g with nodeAliases := [] }
  deleteRows (referenced (fun b a => decide (b.edgeId = a.edgeId)) g.assertions g.edges)
  let g := { g with edges := [] }
  deleteRows <|
    referenced (fun b a => decide (b.actorId = a.actorId)) g.actorKeys g.actors ||
    referenced (fun b a => decide (b.actorId = a.actorId)) g.assertions g.actors ||
    referenced (fun b a => decide (b.observerActorId = a.actorId)) g.observations g.actors ||
    referenced (fun b a => decide (b.disputingActorId = a.actorId)) g.disputes g.actors ||
    referenced (fun b a => decide (b.actorId = a.actorId)) g.retractions g.actors ||
    referenced (fun b a => decide (b.actorId = a.actorId)) g.supersessions g.actors
  let g := { g with actors := [] }
  deleteRows <|
    referenced (fun b a => decide (b.nodeId = a.nodeId)) g.nodeAliases g.nodes ||
    referenced (fun b a => decide (b.subject = a.nodeId) || decide (b.object = a.nodeId))
      g.edges g.nodes
  let g := { g with nodes := [] }
  return g

end Repo

end OpenAgentGraph
