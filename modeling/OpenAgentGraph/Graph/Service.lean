/-
  The graph service (`oag-graph`): authentication, actors and keys,
  redactions, and the rebuild of the projection.

  Every function that writes is one transaction: an error leaves the store as
  it was.
-/
import OpenAgentGraph.Events.Log

namespace OpenAgentGraph

open Lib Repo

variable {H : Type}

/-! ## Errors and limits -/

inductive GraphError (H : Type)
  | storage (e : StorageError)
  | events (e : EventsError)
  | permissionDenied (what : String)
  | invalidApiKey
  | notFound (s : String)
  | invalidInput (s : String)
  | alreadyRedacted (eventId : H)
  | actorAlreadyRedacted (actorId : H)

/-- `?` on an error of a lower layer. -/
def GraphError.lift {ε α : Type} (f : ε → GraphError H) : Except ε α → Except (GraphError H) α
  | .ok a => .ok a
  | .error e => .error (f e)

def maxActorNameLen : ℕ := 512
def maxIdentityUriLen : ℕ := 2048
def maxReasonLen : ℕ := 2048

/-- A field is at most `max` bytes long. -/
def checkLen (field value : String) (max : ℕ) : Except (GraphError H) Unit :=
  if max < (utf8 value).length then
    .error (.invalidInput (field ++ " is " ++ toString (utf8 value).length ++ " bytes, exceeds the "
      ++ toString max ++ "-byte limit"))
  else .ok ()

def checkOptLen (field : String) (value : Option String) (max : ℕ) : Except (GraphError H) Unit :=
  match value with
  | some v => checkLen field v max
  | none => .ok ()

/-! ## Authentication -/

structure AuthContext (H : Type) where
  actorId : H
  permissions : List Permission

def AuthContext.require (auth : AuthContext H) (permission : Permission) :
    Except (GraphError H) Unit :=
  if permission ∈ auth.permissions ∨ .admin ∈ auth.permissions then .ok ()
  else .error (.permissionDenied permission.asStr)

/-- A possession proof for an actor's public key. -/
structure PublicKeyProof where
  publicKey : Bytes
  signature : Bytes

def actorKeyProofDomain : String := "OAG:ACTOR_KEY_PROOF:v1:"

/-- The message that a possession proof signs. -/
def actorKeyProofMessage (actorType : ActorType) (name identityUri : Option String) : Json :=
  .obj [("actor_type", .str actorType.asStr), ("name", Write.optStr name),
    ("identity_uri", Write.optStr identityUri)]

structure RebuildSummary where
  eventsReplayed : ℕ
  redactionsReapplied : ℕ
  actorRedactionsReapplied : ℕ

namespace Prims

variable (P : Prims H) [DecidableEq H]

def authenticate (s : Store H) (rawApiKey : String) : Except (GraphError H) (AuthContext H) :=
  match findActiveKey s.proj (P.blake3 (utf8 rawApiKey)) with
  | some key => .ok ⟨key.actorId, key.permissions⟩
  | none => .error .invalidApiKey

/-! ## Actors and keys -/

/-- The hex of a proved public key. -/
def provedKey (actorType : ActorType) (name identityUri : Option String) :
    Option PublicKeyProof → Except (GraphError H) (Option String)
  | none => .ok none
  | some proof =>
    match P.keyFromBytes proof.publicKey with
    | none => .error (.invalidInput "invalid public key bytes")
    | some key =>
      let canonical := P.jcs.write (actorKeyProofMessage actorType name identityUri)
      if P.verifyWithDomain key actorKeyProofDomain canonical proof.signature then
        .ok (some (hexEncode proof.publicKey))
      else .error (.invalidInput "public key proof signature does not verify")

def declareActor (s : Store H) (identity : PeerIdentity) (actorType : ActorType)
    (name identityUri : Option String) (proof : Option PublicKeyProof) (now : Int64) :
    Except (GraphError H) (Store H × H) := do
  checkOptLen "name" name maxActorNameLen
  checkOptLen "identity_uri" identityUri maxIdentityUriLen
  let publicKey ← P.provedKey actorType name identityUri proof
  let (s, eventId, outcome) ← GraphError.lift .events (P.commitLocalEvent s identity
    (.actorDeclare ⟨actorType.asStr, name, publicKey, identityUri⟩) now)
  match outcome with
  | .actorDeclared actorId => return (s, actorId)
  -- the projector answers every declaration with the actor's id
  | .unit => return (s, eventId)

/-- Issues an API key for an actor from fresh random bytes; only its hash is
    stored. -/
def createKey (s : Store H) (identity : PeerIdentity) (actorId : H) (permissions : List Permission)
    (random : Bytes) (now : Int64) : Except (GraphError H) (Store H × String) := do
  let rawKey := "oagk_" ++ hexEncode random
  let keyHash := P.blake3 (utf8 rawKey)
  let (s, _, _) ← GraphError.lift .events (P.commitLocalEvent s identity
    (.actorKeyAdd ⟨P.toHex actorId, P.toHex keyHash, permissions.map Permission.asStr⟩) now)
  return (s, rawKey)

def revokeKey (s : Store H) (identity : PeerIdentity) (keyHashHex : String) (now : Int64) :
    Except (GraphError H) (Store H) := do
  match hexDecode keyHashHex with
  | .error _ => throw (.invalidInput ("invalid key hash '" ++ keyHashHex ++ "'"))
  | .ok bytes =>
    match P.digestOfBytes bytes with
    | none => throw (.invalidInput ("key hash '" ++ keyHashHex ++ "' must be 32 bytes"))
    | some keyHash =>
      match findActiveKey s.proj keyHash with
      | none => throw (.notFound ("active key " ++ keyHashHex))
      | some existing =>
        let (s, _, _) ← GraphError.lift .events (P.commitLocalEvent s identity
          (.actorKeyRevoke ⟨P.toHex existing.actorId, keyHashHex⟩) now)
        return s

/-! ## Retraction -/

/-- Retracts an assertion of the caller's own actor, or any if the caller is an
    administrator. -/
def retractAssertion (s : Store H) (identity : PeerIdentity) (auth : AuthContext H) (assertionId : H)
    (reason : Option String) (now : Int64) : Except (GraphError H) (Store H) := do
  auth.require .graphRetractOwn
  checkOptLen "reason" reason maxReasonLen
  match getAssertion s.proj assertionId with
  | none => throw (.notFound ("assertion " ++ P.toHex assertionId))
  | some assertion =>
    if assertion.actorId ≠ auth.actorId ∧ .admin ∉ auth.permissions then
      throw (.permissionDenied
        "graph:retract-own requires being the original asserting actor (or admin)")
    let (s, _, _) ← GraphError.lift .events (P.commitLocalEvent s identity
      (.retractAssertion ⟨P.toHex assertionId, P.toHex auth.actorId, reason⟩) now)
    return s

/-! ## Redaction -/

/-- Destroys the free text of an evidence row and records the decision. -/
def redactEvidence (s : Store H) (auth : AuthContext H) (evidenceId : H) (reason : Option String)
    (now : Int64) : Except (GraphError H) (Store H) := do
  auth.require .admin
  checkOptLen "reason" reason maxReasonLen
  if Table.hasKey RedactionRow.eventId evidenceId s.redactions then
    throw (.alreadyRedacted evidenceId)
  let (proj, updated) := Repo.redactEvidence s.proj evidenceId
  if !updated then
    throw (.notFound ("evidence " ++ P.toHex evidenceId))
  let redactions ← GraphError.lift .storage
    (insertNew RedactionRow.eventId ⟨evidenceId, now, reason⟩ s.redactions)
  GraphError.lift .storage (requireKey (Table.hasKey EventRow.eventId evidenceId s.events))
  return { s with proj := proj, redactions := redactions }

def redactActorIdentityUri (s : Store H) (auth : AuthContext H) (actorId : H)
    (reason : Option String) (now : Int64) : Except (GraphError H) (Store H) := do
  auth.require .admin
  checkOptLen "reason" reason maxReasonLen
  if Table.hasKey ActorRedactionRow.actorId actorId s.actorRedactions then
    throw (.actorAlreadyRedacted actorId)
  let (proj, updated) := redactIdentityUri s.proj actorId
  if !updated then
    throw (.notFound ("actor " ++ P.toHex actorId))
  let redactions ← GraphError.lift .storage
    (insertNew ActorRedactionRow.actorId ⟨actorId, now, reason⟩ s.actorRedactions)
  return { s with proj := proj, actorRedactions := redactions }

/-! ## Rebuild -/

/-- Projects one stored event again. -/
def replayRow (events : List (EventRow H)) (g : Projection H) (row : EventRow H) :
    Except EventsError (Projection H) := do
  let signed ← orElse .canonicalize (P.signedFromSlice row.canonicalPayload)
  let (_, g) ← P.project events g row.eventId row.createdAt signed.unsigned.payload
  return g

/-- Projects the rows in insertion order. -/
def replay (events : List (EventRow H)) : Projection H → List (EventRow H) →
    Except EventsError (Projection H)
  | g, [] => .ok g
  | g, row :: rows => do
    let g ← P.replayRow events g row
    replay events g rows

/-- Applies every outstanding redaction. -/
def redactAll (s : Store H) (g : Projection H) : Projection H :=
  let g := s.redactions.foldl (fun g r => (Repo.redactEvidence g r.eventId).1) g
  s.actorRedactions.foldl (fun g r => (redactIdentityUri g r.actorId).1) g

/-- Wipes the projection and replays the whole event log. -/
def rebuildProjection (s : Store H) : Except (GraphError H) (Store H × RebuildSummary) := do
  let cleared ← GraphError.lift .storage (clearProjectionTables s.proj)
  let g ← GraphError.lift .events (P.replay s.events cleared s.events)
  return ({ s with proj := redactAll s g },
    ⟨s.events.length, s.redactions.length, s.actorRedactions.length⟩)

end Prims

end OpenAgentGraph
