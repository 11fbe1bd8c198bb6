/-
  What an event does to the projection, apart from the state it meets.

  `effectOf` decodes a payload into the rows it asks for and the rows it needs
  to find; `Effect.Admissible` says that a state has them; `Effect.apply` is
  the state after.  The projector does exactly this (`project_iff`), so that
  what holds of runs is proved about effects and not about ten handlers.
-/
import OpenAgentGraph.Lib.Except
import OpenAgentGraph.Events.Envelope
import OpenAgentGraph.Events.Projector

namespace OpenAgentGraph

open Lib Repo

variable {H : Type}

/-- The rows that an event writes and those it refers to. -/
structure Effect (H : Type) where
  nodes : List (NodeRow H) := []
  nodeAliases : List (NodeAliasRow H) := []
  edges : List (EdgeRow H) := []
  actors : List (ActorRow H) := []
  actorKeys : List (ActorKeyRow H) := []
  revoked : List (H × Int64) := []
  assertions : List (AssertionRow H) := []
  statuses : List (H × AssertionStatus) := []
  evidence : List (EvidenceRow H) := []
  observations : List (ObservationRow H) := []
  disputes : List (DisputeRow H) := []
  retractions : List (RetractionRow H) := []
  supersessions : List (SupersessionRow H) := []
  eventRefs : List (EventRefRow H) := []
  needNodes : List H := []
  needActors : List H := []
  needAssertions : List H := []

section apply

variable [DecidableEq H]

/-- A node is added unless its id or its identifier is taken. -/
def addNode (t : List (NodeRow H)) (row : NodeRow H) : List (NodeRow H) :=
  if Table.hasKey NodeRow.canonicalIdentifier row.canonicalIdentifier t then t
  else Table.insertOrIgnore NodeRow.nodeId row t

def aliasKey (r : NodeAliasRow H) : H × String := (r.nodeId, r.aliasName)

def revokeRow (t : List (ActorKeyRow H)) (k : H × Int64) : List (ActorKeyRow H) :=
  Table.updateWhere (fun r => decide (r.keyHash = k.1) && r.revokedAt.isNone)
    (fun r => { r with revokedAt := some k.2 }) t

def statusRow (t : List (AssertionRow H)) (k : H × AssertionStatus) : List (AssertionRow H) :=
  Table.updateWhere (fun r => decide (r.id = k.1)) (fun r => { r with status := k.2 }) t

/-- Inserts every row whose key is free. -/
def addAll {α κ : Type} [DecidableEq κ] (key : α → κ) (rows t : List α) : List α :=
  rows.foldl (fun t r => Table.insertOrIgnore key r t) t

/-- The projection after the event. -/
def Effect.apply (e : Effect H) (g : Projection H) : Projection H where
  nodes := e.nodes.foldl addNode g.nodes
  nodeAliases := addAll aliasKey e.nodeAliases g.nodeAliases
  edges := addAll EdgeRow.edgeId e.edges g.edges
  actors := addAll ActorRow.actorId e.actors g.actors
  actorKeys := e.revoked.foldl revokeRow (g.actorKeys ++ e.actorKeys)
  assertions := e.statuses.foldl statusRow (g.assertions ++ e.assertions)
  evidence := g.evidence ++ e.evidence
  observations := g.observations ++ e.observations
  disputes := g.disputes ++ e.disputes
  retractions := g.retractions ++ e.retractions
  supersessions := g.supersessions ++ e.supersessions
  eventRefs := addAll id e.eventRefs g.eventRefs

/-- The state has what the event refers to, and room for its own rows. -/
structure Effect.Admissible (e : Effect H) (g : Projection H) : Prop where
  edges : ∀ r ∈ e.edges, hasEdge g r.edgeId = true ∨
    (hasNode (e.apply g) r.subject = true ∧ hasNode (e.apply g) r.object = true)
  needNodes : ∀ id ∈ e.needNodes, hasNode g id = true
  needActors : ∀ id ∈ e.needActors, hasActor g id = true
  needAssertions : ∀ id ∈ e.needAssertions, hasAssertion g id = true
  actorKeys : ∀ r ∈ e.actorKeys, ∀ y ∈ g.actorKeys, y.keyHash ≠ r.keyHash
  assertions : ∀ r ∈ e.assertions, ∀ y ∈ g.assertions, y.id ≠ r.id
  evidence : ∀ r ∈ e.evidence, ∀ y ∈ g.evidence, y.id ≠ r.id
  observations : ∀ r ∈ e.observations, ∀ y ∈ g.observations, y.id ≠ r.id
  disputes : ∀ r ∈ e.disputes, ∀ y ∈ g.disputes, y.id ≠ r.id
  retractions : ∀ r ∈ e.retractions, ∀ y ∈ g.retractions, y.id ≠ r.id
  supersessions : ∀ r ∈ e.supersessions, ∀ y ∈ g.supersessions, y.id ≠ r.id

end apply

/-! ## Decoding -/

namespace Prims

variable (P : Prims H)

/-- The node row of an identifier that no node has. -/
def newNode (identifier nodeType : String) (createdAt : Int64) : NodeRow H :=
  ⟨P.nodeId identifier, P.nodeType nodeType, identifier, none, none, none, .emptyObj, createdAt⟩

def relationEffect (eventId : H) (createdAt : Int64) (p : AssertRelationPayload) :
    Option (Effect H) := do
  let actorId ← (P.parseId p.actorId).toOption
  let extractionMethod ← ExtractionMethod.parse p.extractionMethod
  let subjectId := P.nodeId p.subjectIdentifier
  let objectId := P.nodeId p.objectIdentifier
  let edgeId := P.edgeId subjectId (P.predicate p.predicate) objectId
  return {
    nodes := [P.newNode p.subjectIdentifier p.subjectType createdAt,
      P.newNode p.objectIdentifier p.objectType createdAt]
    edges := [⟨edgeId, subjectId, P.predicate p.predicate, objectId, createdAt⟩]
    assertions := [⟨eventId, edgeId, actorId, realColumn p.actorConfidence, p.observedAt, createdAt,
      extractionMethod, .active⟩]
    eventRefs := [⟨eventId, .assertion, eventId⟩, ⟨eventId, .edge, edgeId⟩,
      ⟨eventId, .node, subjectId⟩, ⟨eventId, .node, objectId⟩]
    needActors := [actorId] }

def evidenceEffect (eventId : H) (p : AddEvidencePayload) : Option (Effect H) := do
  let assertionId ← (P.parseId p.assertionId).toOption
  let evidenceType ← EvidenceType.parse p.evidenceType
  return {
    evidence := [⟨eventId, assertionId, evidenceType, p.uri, p.title, p.excerpt, p.contentHash,
      p.observedAt, p.retrievedAt, buildEvidenceMetadata p.pinnedCid p.metadata⟩]
    eventRefs := [⟨eventId, .assertion, assertionId⟩]
    needAssertions := [assertionId] }

def verifyEffect (eventId : H) (createdAt : Int64) (p : VerifyAssertionPayload) :
    Option (Effect H) := do
  let assertionId ← (P.parseId p.assertionId).toOption
  let observerActorId ← (P.parseId p.observerActorId).toOption
  return {
    observations := [⟨eventId, assertionId, observerActorId, p.result, p.observedAt, createdAt⟩]
    eventRefs := [⟨eventId, .assertion, assertionId⟩]
    needActors := [observerActorId]
    needAssertions := [assertionId] }

def disputeEffect (eventId : H) (createdAt : Int64) (p : DisputeAssertionPayload) :
    Option (Effect H) := do
  let assertionId ← (P.parseId p.disputedAssertionId).toOption
  let actorId ← (P.parseId p.disputingActorId).toOption
  return {
    disputes := [⟨eventId, assertionId, actorId, p.reason, createdAt⟩]
    statuses := [(assertionId, .disputed)]
    eventRefs := [⟨eventId, .assertion, assertionId⟩]
    needActors := [actorId]
    needAssertions := [assertionId] }

def retractEffect (eventId : H) (createdAt : Int64) (p : RetractAssertionPayload) :
    Option (Effect H) := do
  let assertionId ← (P.parseId p.retractedAssertionId).toOption
  let actorId ← (P.parseId p.actorId).toOption
  return {
    retractions := [⟨eventId, assertionId, actorId, p.reason, createdAt⟩]
    statuses := [(assertionId, .retracted)]
    eventRefs := [⟨eventId, .assertion, assertionId⟩]
    needActors := [actorId]
    needAssertions := [assertionId] }

def supersedeEffect (eventId : H) (createdAt : Int64) (p : SupersedeAssertionPayload) :
    Option (Effect H) := do
  let oldId ← (P.parseId p.oldAssertionId).toOption
  let newId ← (P.parseId p.newAssertionId).toOption
  let actorId ← (P.parseId p.actorId).toOption
  return {
    supersessions := [⟨eventId, oldId, newId, actorId, createdAt⟩]
    statuses := [(oldId, .superseded)]
    eventRefs := [⟨eventId, .assertion, oldId⟩, ⟨eventId, .assertion, newId⟩]
    needActors := [actorId]
    needAssertions := [oldId, newId] }

/-- The bytes of a declared public key. -/
def declaredKey : Option String → Option (Option Bytes)
  | none => some none
  | some s => (parsePublicKey s).toOption.map some

def actorEffect (eventId : H) (createdAt : Int64) (p : ActorDeclarePayload) :
    Option (Effect H) := do
  let actorType ← ActorType.parse p.actorType
  let publicKey ← declaredKey p.publicKey
  return { actors := [⟨P.actorIdOf eventId p.publicKey, actorType, p.name, publicKey, p.identityUri,
    .emptyObj, createdAt⟩] }

def keyAddEffect (createdAt : Int64) (p : ActorKeyAddPayload) : Option (Effect H) := do
  let actorId ← (P.parseId p.actorId).toOption
  let keyHash ← (P.parseKeyHash p.keyHash).toOption
  return {
    actorKeys := [⟨keyHash, actorId,
      (p.permissions.filterMap Permission.parse).map Permission.asStr, createdAt, none⟩]
    needActors := [actorId] }

def keyRevokeEffect (createdAt : Int64) (p : ActorKeyRevokePayload) : Option (Effect H) := do
  let keyHash ← (P.parseKeyHash p.keyHash).toOption
  return { revoked := [(keyHash, createdAt)] }

def aliasEffect (p : NodeAliasPayload) : Option (Effect H) := do
  let nodeId ← (P.parseId p.nodeId).toOption
  let aliasType ← AliasType.parse p.aliasType
  return {
    nodeAliases := [⟨nodeId, p.aliasName, aliasType, none⟩]
    needNodes := [nodeId] }

/-- The effect of an event, if its payload decodes. -/
def effectOf (eventId : H) (createdAt : Int64) : EventPayload → Option (Effect H)
  | .assertRelation p => P.relationEffect eventId createdAt p
  | .addEvidence p => P.evidenceEffect eventId p
  | .verifyAssertion p => P.verifyEffect eventId createdAt p
  | .disputeAssertion p => P.disputeEffect eventId createdAt p
  | .retractAssertion p => P.retractEffect eventId createdAt p
  | .supersedeAssertion p => P.supersedeEffect eventId createdAt p
  | .actorDeclare p => P.actorEffect eventId createdAt p
  | .actorKeyAdd p => P.keyAddEffect createdAt p
  | .actorKeyRevoke p => P.keyRevokeEffect createdAt p
  | .nodeAlias p => P.aliasEffect p

/-- The assertion whose status a payload changes, and the new status. -/
def payloadStatus : EventPayload → Option (H × AssertionStatus)
  | .disputeAssertion p => (P.parseId p.disputedAssertionId).toOption.map (·, .disputed)
  | .retractAssertion p => (P.parseId p.retractedAssertionId).toOption.map (·, .retracted)
  | .supersedeAssertion p => (P.parseId p.oldAssertionId).toOption.map (·, .superseded)
  | _ => none

end Prims

/-! ## What an effect contains -/

theorem option_bind_some {α β : Type} {x : Option α} {f : α → Option β} {b : β} :
    (x >>= f) = some b ↔ ∃ a, x = some a ∧ f a = some b :=
  Option.bind_eq_some_iff

theorem option_pure_some {α : Type} {a b : α} : (pure a : Option α) = some b ↔ a = b := by
  simp [pure]

/-- The payload adds the key of the row. -/
def AddsKey (P : Prims H) (p : EventPayload) (r : ActorKeyRow H) : Prop :=
  ∃ q, p = .actorKeyAdd q ∧ P.parseKeyHash q.keyHash = .ok r.keyHash ∧
    P.parseId q.actorId = .ok r.actorId ∧
    r.permissions = (q.permissions.filterMap Permission.parse).map Permission.asStr

/-- The payload revokes the key. -/
def RevokesKey (P : Prims H) (p : EventPayload) (keyHash : H) : Prop :=
  ∃ q, p = .actorKeyRevoke q ∧ P.parseKeyHash q.keyHash = .ok keyHash

/-- What the rows of a payload's effect satisfy. -/
structure Effect.Spec (P : Prims H) (p : EventPayload) (e : Effect H) : Prop where
  nodes : ∀ r ∈ e.nodes, r.nodeId = P.nodeId r.canonicalIdentifier
  edges : ∀ r ∈ e.edges, r.edgeId = P.edgeId r.subject r.predicate r.object
  endpoints : ∀ r ∈ e.edges,
    (∃ n ∈ e.nodes, n.nodeId = r.subject) ∧ ∃ n ∈ e.nodes, n.nodeId = r.object
  statuses : e.statuses = (P.payloadStatus p).toList
  named : ∀ c ∈ e.statuses, c.1 ∈ e.needAssertions
  notActive : ∀ c ∈ e.statuses, c.2 ≠ .active
  active : ∀ r ∈ e.assertions, r.status = .active
  actorKeys : ∀ r ∈ e.actorKeys, AddsKey P p r
  revoked : ∀ k ∈ e.revoked, RevokesKey P p k.1

theorem effectOf_spec {P : Prims H} {eventId : H} {createdAt : Int64} {p : EventPayload}
    {e : Effect H} (h : P.effectOf eventId createdAt p = some e) : e.Spec P p := by
  cases p with
  | assertRelation p =>
    simp only [Prims.effectOf, Prims.relationEffect, option_bind_some, option_pure_some] at h
    obtain ⟨_, -, _, -, rfl⟩ := h
    constructor <;> simp [Prims.newNode, Prims.payloadStatus]
  | addEvidence p =>
    simp only [Prims.effectOf, Prims.evidenceEffect, option_bind_some, option_pure_some] at h
    obtain ⟨_, -, _, -, rfl⟩ := h
    constructor <;> simp [Prims.payloadStatus]
  | verifyAssertion p =>
    simp only [Prims.effectOf, Prims.verifyEffect, option_bind_some, option_pure_some] at h
    obtain ⟨_, -, _, -, rfl⟩ := h
    constructor <;> simp [Prims.payloadStatus]
  | disputeAssertion p =>
    simp only [Prims.effectOf, Prims.disputeEffect, option_bind_some, option_pure_some] at h
    obtain ⟨_, hid, _, -, rfl⟩ := h
    constructor <;> simp [Prims.payloadStatus, hid]
  | retractAssertion p =>
    simp only [Prims.effectOf, Prims.retractEffect, option_bind_some, option_pure_some] at h
    obtain ⟨_, hid, _, -, rfl⟩ := h
    constructor <;> simp [Prims.payloadStatus, hid]
  | supersedeAssertion p =>
    simp only [Prims.effectOf, Prims.supersedeEffect, option_bind_some, option_pure_some] at h
    obtain ⟨_, hid, _, -, _, -, rfl⟩ := h
    constructor <;> simp [Prims.payloadStatus, hid]
  | actorDeclare p =>
    simp only [Prims.effectOf, Prims.actorEffect, option_bind_some, option_pure_some] at h
    obtain ⟨_, -, _, -, rfl⟩ := h
    constructor <;> simp [Prims.payloadStatus]
  | actorKeyAdd p =>
    simp only [Prims.effectOf, Prims.keyAddEffect, option_bind_some, option_pure_some,
      toOption_eq_some] at h
    obtain ⟨_, hactor, _, hkey, rfl⟩ := h
    constructor <;> simp [Prims.payloadStatus, AddsKey, hactor, hkey]
  | actorKeyRevoke p =>
    simp only [Prims.effectOf, Prims.keyRevokeEffect, option_bind_some, option_pure_some,
      toOption_eq_some] at h
    obtain ⟨_, hkey, rfl⟩ := h
    constructor <;> simp [Prims.payloadStatus, RevokesKey, hkey]
  | nodeAlias p =>
    simp only [Prims.effectOf, Prims.aliasEffect, option_bind_some, option_pure_some] at h
    obtain ⟨_, -, _, -, rfl⟩ := h
    constructor <;> simp [Prims.payloadStatus]

end OpenAgentGraph
