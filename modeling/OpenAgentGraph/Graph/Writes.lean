/-
  The other writes of `oag-graph/src/assert.rs`: evidence, verifications,
  disputes and supersessions, one event each.
-/
import OpenAgentGraph.Graph.Assert

namespace OpenAgentGraph

open Lib Repo

variable {H : Type}

inductive VerifyResult
  | confirmed | notConfirmed | changed | contradicted | unreachable | unknown
  deriving DecidableEq, Repr

namespace VerifyResult

def asStr : VerifyResult → String
  | confirmed => "confirmed"
  | notConfirmed => "not_confirmed"
  | changed => "changed"
  | contradicted => "contradicted"
  | unreachable => "unreachable"
  | unknown => "unknown"

def parse : String → Option VerifyResult
  | "confirmed" => some confirmed
  | "not_confirmed" => some notConfirmed
  | "changed" => some changed
  | "contradicted" => some contradicted
  | "unreachable" => some unreachable
  | "unknown" => some unknown
  | _ => none

end VerifyResult

namespace Prims

variable (P : Prims H) [DecidableEq H]

def addEvidence (s : Store H) (identity : PeerIdentity) (auth : AuthContext H) (assertionId : H)
    (evidence : EvidenceInput) (now : Int64) : Except (GraphError H) (Store H) := do
  auth.require .graphAssert
  evidence.validate P
  P.addEvidenceInternal s identity assertionId evidence now

def verifyAssertion (s : Store H) (identity : PeerIdentity) (auth : AuthContext H) (assertionId : H)
    (result : VerifyResult) (observedAt now : Int64) : Except (GraphError H) (Store H) := do
  auth.require .graphVerify
  let (s, _) ← P.commitEvent s identity
    (.verifyAssertion ⟨P.toHex assertionId, P.toHex auth.actorId, result.asStr, observedAt⟩) now
  return s

def disputeAssertion (s : Store H) (identity : PeerIdentity) (auth : AuthContext H) (assertionId : H)
    (reason : Option String) (now : Int64) : Except (GraphError H) (Store H) := do
  auth.require .graphAssert
  checkOptLen "reason" reason maxReasonLen
  let (s, _) ← P.commitEvent s identity
    (.disputeAssertion ⟨P.toHex assertionId, P.toHex auth.actorId, reason⟩) now
  return s

def supersedeAssertion (s : Store H) (identity : PeerIdentity) (auth : AuthContext H)
    (oldAssertionId newAssertionId : H) (now : Int64) : Except (GraphError H) (Store H) := do
  auth.require .graphAssert
  let (s, _) ← P.commitEvent s identity
    (.supersedeAssertion ⟨P.toHex oldAssertionId, P.toHex newAssertionId, P.toHex auth.actorId⟩) now
  return s

end Prims

end OpenAgentGraph
