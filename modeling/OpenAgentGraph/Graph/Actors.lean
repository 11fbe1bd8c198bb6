/-
  Actors: runs of a peer whose own declarations come from `declare_actor`,
  and the assurance that ranking reads off an actor's row
  (`oag-graph`: `service.rs`, `corroboration.rs`).
-/
import OpenAgentGraph.Run

namespace OpenAgentGraph

open Lib Repo

variable {H : Type}

/-! ## Identity assurance -/

/-- `identity_assurance_score`, as the bits of an `f32`. -/
def identityAssuranceScore (actor : ActorRow H) : UInt32 :=
  match actor.publicKey.isSome, actor.identityUri.isSome with
  | true, true => 0x3F800000 -- 1.0
  | true, false => 0x3F333333 -- 0.7
  | false, true => 0x3E99999A -- 0.3
  | false, false => 0

/-! ## Runs -/

/-- An operation of a peer that declares actors through its service. -/
inductive ActorOp (P : Prims H)
  | declare (actorType : ActorType) (name identityUri : Option String)
      (proof : Option PublicKeyProof) (now : Int64)
  /-- A call that commits an event other than a declaration. -/
  | call (payload : EventPayload) (other : ∀ p, payload ≠ .actorDeclare p) (now : Int64)
  | ingest (key : P.VerifyingKey) (signed : SignedEvent) (receivedAt : Int64)
  | rebuild
  | redactEvidence (auth : AuthContext H) (evidenceId : H) (reason : Option String) (now : Int64)
  | redactActor (auth : AuthContext H) (actorId : H) (reason : Option String) (now : Int64)

namespace Prims

variable (P : Prims H) [DecidableEq H]

/-- The store after the operation; none if it failed. -/
def actorExec (me : PeerIdentity) (s : Store H) : ActorOp P → Option (Store H)
  | .declare actorType name identityUri proof now =>
    (P.declareActor s me actorType name identityUri proof now).toOption.map Prod.fst
  | .call payload _ now => P.exec s (.commit me payload now)
  | .ingest key signed receivedAt => P.exec s (.ingest key signed receivedAt)
  | .rebuild => P.exec s .rebuild
  | .redactEvidence auth evidenceId reason now => P.exec s (.redactEvidence auth evidenceId reason now)
  | .redactActor auth actorId reason now => P.exec s (.redactActor auth actorId reason now)

def actorStep (me : PeerIdentity) (s : Store H) (op : ActorOp P) : Store H :=
  (P.actorExec me s op).getD s

def actorRun (me : PeerIdentity) (s : Store H) (ops : List (ActorOp P)) : Store H :=
  ops.foldl (P.actorStep me) s

end Prims

end OpenAgentGraph
