/-
  Runs of a peer whose own events come from calls of the graph service.

  `retract_assertion` is the only call that commits a retraction, and it asks
  who the caller is first; every other call is its event.
-/
import OpenAgentGraph.Run

namespace OpenAgentGraph

open Lib Repo

variable {H : Type}

/-- An operation of a peer that is used through its service. -/
inductive ServiceOp (P : Prims H)
  /-- A call that commits an event other than a retraction. -/
  | call (payload : EventPayload) (other : ∀ p, payload ≠ .retractAssertion p) (now : Int64)
  | retract (auth : AuthContext H) (assertionId : H) (reason : Option String) (now : Int64)
  | ingest (key : P.VerifyingKey) (signed : SignedEvent) (receivedAt : Int64)
  | rebuild
  | redactEvidence (auth : AuthContext H) (evidenceId : H) (reason : Option String) (now : Int64)
  | redactActor (auth : AuthContext H) (actorId : H) (reason : Option String) (now : Int64)

namespace Prims

variable (P : Prims H) [DecidableEq H]

/-- The store after the operation; none if it failed. -/
def serviceExec (me : PeerIdentity) (s : Store H) : ServiceOp P → Option (Store H)
  | .call payload _ now => P.exec s (.commit me payload now)
  | .retract auth assertionId reason now =>
    (P.retractAssertion s me auth assertionId reason now).toOption
  | .ingest key signed receivedAt => P.exec s (.ingest key signed receivedAt)
  | .rebuild => P.exec s .rebuild
  | .redactEvidence auth evidenceId reason now => P.exec s (.redactEvidence auth evidenceId reason now)
  | .redactActor auth actorId reason now => P.exec s (.redactActor auth actorId reason now)

def serviceStep (me : PeerIdentity) (s : Store H) (op : ServiceOp P) : Store H :=
  (P.serviceExec me s op).getD s

def serviceRun (me : PeerIdentity) (s : Store H) (ops : List (ServiceOp P)) : Store H :=
  ops.foldl (P.serviceStep me) s

theorem serviceRun_append (me : PeerIdentity) (s : Store H) (ops : List (ServiceOp P))
    (op : ServiceOp P) :
    P.serviceRun me s (ops ++ [op]) = P.serviceStep me (P.serviceRun me s ops) op := by
  simp [serviceRun]

end Prims

end OpenAgentGraph
